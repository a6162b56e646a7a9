import ControlRTT.Kernel.SlabCalls
import ControlRTT.Lib.Runs

/-! # Runs of the slab heap

The callers allocate and free, and write to the memory that they hold. -/
namespace ControlRTT.Kernel.Slab
open ControlRTT.Kernel.RtDef ControlRTT.Kernel.SlabPage ControlRTT.Lib.Extents
  ControlRTT.Lib.LinkedList ControlRTT.Lib.Runs ControlRTT.Lib.CInt

/-- Addresses for a heap: there is a page between them, which is not the null page. -/
structure HeapRegion where
  beginAddr : Nat
  endAddr : Nat
  begin_pos : 0 < rtAlign beginAddr rtMmPageSize
  room : rtAlign beginAddr rtMmPageSize < rtAlignDown endAddr rtMmPageSize
  end_lt : endAddr < 2 ^ 32

/-- What a caller stores is any memory; it reaches what its blocks hold. -/
inductive Event where
  | malloc (size : Nat)
  | free (b : Block)
  | write (memory : Heap)

/-- The heap, and what the callers hold. -/
structure HeapRun where
  heap : Heap
  live : List Block := []

/-- Some of these bytes are the callers'. -/
def Written (live : List Block) (a len : Nat) : Prop :=
  ∃ b ∈ live, a < b.start + b.size ∧ b.start < a + len

instance (live : List Block) (a len : Nat) : Decidable (Written live a len) :=
  inferInstanceAs (Decidable (∃ b ∈ live, _ ∧ _))

/-- The heads of pages, the headers of zones and the links of chunks that lie in blocks, at least
in part, are overwritten. -/
def write (s : Heap) (live : List Block) (memory : Heap) : Heap := { s with
  pages := { s.pages with
    head := fun p => if Written live (p * rtMmPageSize) 8 then memory.pages.head p
      else s.pages.head p }
  zone := fun z => if Written live (z * rtMmPageSize) sizeofSlabZone then memory.zone z
    else s.zone z
  cNext := fun c => if Written live c 4 then memory.cNext c else s.cNext c }

/-- Sizes have 32 bits. Only what is held is freed. -/
def Allowed (r : HeapRun) : Event → Prop
  | .malloc size => size < 2 ^ 32
  | .free b => b ∈ r.live
  | .write _ => True

instance (r : HeapRun) (e : Event) : Decidable (Allowed r e) :=
  match e with
  | .malloc size => inferInstanceAs (Decidable (size < 2 ^ 32))
  | .free b => inferInstanceAs (Decidable (b ∈ r.live))
  | .write _ => inferInstanceAs (Decidable True)

/-- The state after a call that returns. -/
def act (r : HeapRun) : Event → Option HeapRun
  | .malloc size => (rtMalloc r.heap size).map fun (heap, p) => ⟨heap, held r.live p size⟩
  | .free b => (rtFree r.heap b.start).map fun heap => ⟨heap, r.live.erase b⟩
  | .write memory => some { r with heap := write r.heap r.live memory }

def step (r : HeapRun) (e : Event) : Option HeapRun := if Allowed r e then act r e else none

/-- The variables of the allocator are zero at first; what is in memory is left open. -/
def start (g : HeapRegion) (memory : Heap) : Option HeapRun :=
  (rtSystemHeapInit { memory with zoneArray := fun _ => none, zoneFree := none, zoneFreeCnt := 0 }
    g.beginAddr g.endAddr).map fun heap => { heap }

/-- The pages between the addresses. -/
def HeapRegion.pages (g : HeapRegion) : PageRegion where
  first := firstPage g.beginAddr
  npages := pageCount g.beginAddr g.endAddr
  first_pos := by
    have := g.begin_pos
    have := dvd_rtAlign g.beginAddr rtMmPageSize
    unfold firstPage rtMmPageSize at *
    omega
  npages_pos := by
    have := g.room
    have := dvd_rtAlign g.beginAddr rtMmPageSize
    have := dvd_rtAlignDown g.endAddr rtMmPageSize
    unfold pageCount rtMmPageSize at *
    omega
  fits := by
    have := g.room
    have := g.end_lt
    have := rtAlignDown_le g.endAddr rtMmPageSize
    unfold firstPage pageCount pageLimit rtMmPageSize at *
    omega

/-- The zones of the heap, and what is known of them and of the blocks. The pages are free, or they
are those of `memusage`, of a zone or of a large block. A zone has room for its chunks behind its
header; its count is that of the chunks it has never given and of the free ones it links. It is in a
list exactly if that is the list of its index, the count is not zero and it is not one of the free
zones. Each chunk that it has given is free or held, and none is twice. Each block is a chunk of a
zone or large, is as large as was asked for, and shares no memory with another one. -/
structure Accounts (g : PageRegion) (r : HeapRun) (L : Layout) : Prop where
  pages : PagesOf g r.heap.pages (runs r.heap.zoneSize L.usage L.zones r.live)
  arrays : ∀ zi, Chain (fun z => (r.heap.zone z).zNext) (r.heap.zoneArray zi) (L.lists zi)
  freeZones : Chain (fun z => (r.heap.zone z).zNext) r.heap.zoneFree L.freed
  freeChunks : ∀ z ∈ L.zones, Chain r.heap.cNext (r.heap.zone z).zFreechunk (L.free z)
  room : ∀ z ∈ L.zones, z * rtMmPageSize + sizeofSlabZone ≤ (r.heap.zone z).zBaseptr ∧
    (r.heap.zone z).zBaseptr + (r.heap.zone z).zNmax * (r.heap.zone z).zChunksize ≤
      z * rtMmPageSize + r.heap.zoneSize
  uindex : ∀ z ∈ L.zones, (r.heap.zone z).zUindex < (r.heap.zone z).zNmax
  nfree : ∀ z ∈ L.zones, (r.heap.zone z).zNfree =
    (r.heap.zone z).zNmax - 1 - (r.heap.zone z).zUindex + (L.free z).length
  listed : ∀ z zi, z ∈ L.lists zi ↔ z ∈ L.zones ∧ (r.heap.zone z).zZoneindex = zi ∧
    0 < (r.heap.zone z).zNfree ∧ z ∉ L.freed
  chunks : ∀ z ∈ L.zones,
    (L.free z ++ taken r.heap.zoneSize r.live z).Perm (chunks (r.heap.zone z))
  distinct : ∀ z ∈ L.zones, (L.free z ++ taken r.heap.zoneSize r.live z).Nodup
  located : ∀ b ∈ r.live, b.size < zoneLimit r.heap.zoneSize →
    ∃ z ∈ L.zones, b.start ∈ taken r.heap.zoneSize r.live z
  enough : ∀ b ∈ r.live, b.size ≤ blockSize r.heap b.start
  apart : r.live.Pairwise fun b c => (space r.heap b).Apart (space r.heap c)

/-- Everything is accounted for, and every call that may be made returns. -/
def WellFormed (g : PageRegion) (r : HeapRun) : Prop :=
  (∃ L, Accounts g r L) ∧ ∀ e, Allowed r e → (act r e).isSome

/-! ## Writing -/

section
variable {g : PageRegion} {s : Heap} {live : List Block} {L : Layout} {z c p : Nat}

theorem Lists.congr {zoneArray : Nat → Option Nat} {zone zone' : Nat → SlabZone}
    {used : List Nat} {lists : Nat → List Nat} (h : Lists zoneArray zone used lists)
    (hsame : ∀ z ∈ used, zone' z = zone z) : Lists zoneArray zone' used lists where
  chain zi := (h.chain zi).congr fun z hz =>
    congrArg SlabZone.zNext (hsame z ((h.mem zi z).mp hz).1)
  nodup := h.nodup
  mem zi z := (h.mem zi z).trans (and_congr_right fun hz => by rw [hsame z hz])
  magic z hz := (congrArg SlabZone.zMagic (hsame z hz)).trans (h.magic z hz)

namespace Sound
variable (h : Sound g s live L)
include h

/-- No block reaches into the header of a zone. -/
theorem header_not_written (hz : z ∈ L.zones) :
    ¬ Written live (z * rtMmPageSize) sizeofSlabZone := by
  rintro ⟨b, hb, hlt, hlt'⟩
  have hle := h.le_blockSize hb
  have hzone := h.zoneSize.le
  by_cases hin : b.size < zoneLimit s.zoneSize ∧ InZone s.zoneSize z b.start
  · have := (h.inside hb hin.1 hz hin.2).1
    omega
  · have hout := h.outside hb hz hin
    unfold Extent.Apart space Extent.stop at hout
    unfold sizeofSlabZone at hlt'
    dsimp only at hout
    omega

/-- No block reaches into a free chunk. -/
theorem chunk_not_written (hz : z ∈ L.zones) (hc : c ∈ L.free z) : ¬ Written live c 4 := by
  rintro ⟨b, hb, hlt, hlt'⟩
  have hparted := h.zones.parted z hz
  have hle := h.le_blockSize hb
  have hpos := hparted.le_size
  obtain ⟨hbase, hstop⟩ := hparted.inside (hparted.mem_free hc)
  unfold minChunkSize at hpos
  by_cases hin : b.size < zoneLimit s.zoneSize ∧ InZone s.zoneSize z b.start
  · have hmem := mem_taken hb hin.1 hin.2
    have hne : c ≠ b.start := (List.nodup_append.mp hparted.nodup).2.2 c hc _ hmem
    have hapart := hparted.apart (hparted.mem_free hc) (hparted.mem_taken hmem) hne
    rw [h.blockSize_small hz hin.2] at hle
    omega
  · have hout := h.outside hb hz hin
    unfold Extent.Apart space Extent.stop at hout
    dsimp only at hout
    omega

/-- The pages that blocks reach into are in use. -/
theorem page_in_use (hp : Written live (p * rtMmPageSize) 8) :
    Covers (runs s.zoneSize L.usage L.zones live) p := by
  obtain ⟨b, hb, hlt, hlt'⟩ := hp
  have hle := h.le_blockSize hb
  by_cases hsize : b.size < zoneLimit s.zoneSize
  · obtain ⟨z, hz, hin, -⟩ := h.zones.located b hb hsize
    obtain ⟨hbase, hstop⟩ := h.inside hb hsize (mem_zones hz) hin
    have hmod := h.zoneSize.mod
    refine ⟨_, zone_mem (mem_zones hz), ?_⟩
    unfold Extent.Contains zoneRun zonePageCnt Extent.stop
    unfold space Extent.stop at hstop
    unfold sizeofSlabZone at hbase
    unfold rtMmPageSize at *
    dsimp only at *
    omega
  · rw [Nat.not_lt] at hsize
    have halign := (h.placed.described.large b hb hsize).1
    rw [h.blockSize_large hb hsize] at hle
    refine ⟨_, block_mem hb hsize, ?_⟩
    unfold Extent.Contains Block.run Extent.stop
    unfold rtMmPageSize at *
    dsimp only at *
    omega

/-- What the callers write leaves the heap in order. -/
theorem write (memory : Heap) : Sound g (Slab.write s live memory) live L := by
  have hzone : ∀ z ∈ L.zones, (Slab.write s live memory).zone z = s.zone z := fun z hz =>
    if_neg (h.header_not_written hz)
  have hcNext : ∀ z ∈ L.zones, ∀ c ∈ L.free z, (Slab.write s live memory).cNext c = s.cNext c :=
    fun z hz c hc => if_neg (h.chunk_not_written hz hc)
  refine ⟨h.zoneSize, ⟨h.placed.pages.write fun p hp => if_neg fun hw => hp (h.page_in_use hw),
    h.placed.described⟩, fun z hz => ?_, fun b hb hsize => ?_,
    h.zones.lists.congr fun z hz => hzone z (mem_zones hz),
    h.zones.freeList.congr fun z hz =>
      congrArg SlabZone.zNext (hzone z (List.mem_append_right _ hz))⟩
  · rw [hzone z hz]
    exact (h.zones.parted z hz).congr (hcNext z hz)
  · obtain ⟨z, hz, hin, hle⟩ := h.zones.located b hb hsize
    refine ⟨z, hz, hin, ?_⟩
    rwa [hzone z (mem_zones hz)]

end Sound

end

/-! ## Runs -/

section
variable {g : PageRegion} {r r' : HeapRun} {L : Layout}

theorem Sound.accounts (h : Sound g r.heap r.live L) : Accounts g r L where
  pages := h.placed.pages
  arrays := h.zones.lists.chain
  freeZones := h.zones.freeList
  freeChunks z hz := (h.zones.parted z hz).chain
  room z hz := ⟨(h.zones.parted z hz).base, (h.zones.parted z hz).room⟩
  uindex z hz := (h.zones.parted z hz).uindex
  nfree z hz := (h.zones.parted z hz).nfree
  listed z zi := by
    rw [h.zones.lists.mem zi z, Layout.zones, List.mem_append]
    constructor
    · rintro ⟨hz, hindex, hnfree⟩
      exact ⟨.inl hz, hindex, hnfree, h.notMem_freed hz⟩
    · rintro ⟨hz, hindex, hnfree, hout⟩
      exact ⟨hz.resolve_right hout, hindex, hnfree⟩
  chunks z hz := (h.zones.parted z hz).chunks
  distinct z hz := (h.zones.parted z hz).nodup
  located b hb hsize := by
    obtain ⟨z, hz, hin, -⟩ := h.zones.located b hb hsize
    exact ⟨z, mem_zones hz, mem_taken hb hsize hin⟩
  enough _ hb := h.le_blockSize hb
  apart := h.apart

/-- Every call that may be made returns, and keeps the heap in order. -/
theorem Sound.act (h : Sound g r.heap r.live L) {e : Event} (he : Allowed r e) :
    ∃ r', Slab.act r e = some r' ∧ ∃ L', Sound g r'.heap r'.live L' := by
  cases e with
  | malloc size =>
    obtain ⟨s', p, hcall, L', hsound⟩ := h.rtMalloc he
    exact ⟨⟨s', held r.live p size⟩, by simp only [Slab.act, hcall, Option.map_some], L', hsound⟩
  | free b =>
    obtain ⟨s', hcall, L', hsound⟩ := (h.perm (List.perm_cons_erase he)).rtFree
    exact ⟨⟨s', r.live.erase b⟩, by simp only [Slab.act, hcall, Option.map_some], L', hsound⟩
  | write memory => exact ⟨_, rfl, L, h.write memory⟩

theorem wellFormed_of_sound (h : ∃ L, Sound g r.heap r.live L) : WellFormed g r := by
  obtain ⟨L, hsound⟩ := h
  refine ⟨⟨L, hsound.accounts⟩, fun e he => ?_⟩
  obtain ⟨r', hact, -⟩ := hsound.act he
  rw [hact]
  rfl

end

/-- From one free run, the pages come from its start. -/
theorem rtPageAlloc_whole {heap : PageHeap} {first npages n : Nat}
    (hl : Listed heap heap.rtPageList [⟨first, npages⟩]) (hpos : 0 < n) (hn : n ≤ npages) :
    ∃ heap', rtPageAlloc heap n = some (heap', first) := by
  have hone : [Extent.mk first npages].length < pageLimit + 1 := Nat.succ_lt_succ (by decide)
  have hsep : Separated [⟨first, npages⟩] :=
    ⟨Nat.lt_of_lt_of_le hpos hn, (fun f hf => by cases hf), trivial⟩
  have hprev : ∀ b, none = some b → ∀ e ∈ [Extent.mk first npages], b < e.start :=
    fun b hb => by cases hb
  have hspec := allocLoop_spec n hone hl hsep hprev
  have htaken : ∃ rest, takeFirst n [⟨first, npages⟩] = some (first, rest) := by
    by_cases hlt : n < npages
    · exact ⟨_, if_pos hlt⟩
    · exact ⟨[], (if_neg hlt).trans (if_pos (Nat.le_antisymm (Nat.not_lt.mp hlt) hn))⟩
  obtain ⟨rest, htaken⟩ := htaken
  rw [htaken] at hspec
  obtain ⟨heap', hcall, -⟩ := hspec
  exact ⟨heap', (if_neg (Nat.ne_of_gt hpos)).trans hcall⟩

/-- The heap that `rt_system_heap_init` makes has no zones. -/
theorem start_sound (g : HeapRegion) (memory : Heap) :
    ∃ r, start g memory = some r ∧ ∃ L, Sound g.pages r.heap r.live L := by
  obtain ⟨s, hs, hpages⟩ := start_pages g.pages memory.pages
  obtain ⟨heap, hinit, rfl⟩ := Option.map_eq_some_iff.mp hs
  have hfirst := Nat.ne_of_gt g.pages.first_pos
  have hnpages := g.pages.npages_pos
  have hfits := g.pages.fits
  have husage : 0 < usagePages g.pages.npages ∧ usagePages g.pages.npages ≤ g.pages.npages := by
    unfold usagePages rtAlign rtAlignDown u32 rtMmPageSize
    unfold pageLimit at hfits
    omega
  obtain ⟨heap', hcall⟩ := rtPageAlloc_whole hpages.listed husage.1 husage.2
  have halloc := PagesOf.alloc ⟨_, hpages⟩ (usagePages g.pages.npages)
  obtain ⟨heap₁, b, hcall₁, hplaced⟩ := halloc
  rw [hcall] at hcall₁
  obtain ⟨rfl, rfl⟩ := Prod.mk.inj (Option.some.inj hcall₁)
  rw [if_neg hfirst] at hplaced
  have hstart : start g memory = some { heap := { memory with
      pages := heap'
      zoneArray := fun _ => none
      zoneFree := none
      zoneFreeCnt := 0
      zoneSize := zoneSizeLoop (g.pages.npages * rtMmPageSize) 2 zallocMinZoneSize } } := by
    unfold start rtSystemHeapInit
    rw [if_neg (Nat.not_le.mpr g.room)]
    change (((rtPageInit memory.pages g.pages.first g.pages.npages).bind _).map _) = _
    rw [hinit, Option.bind_some]
    dsimp only
    change (((rtPageAlloc heap (usagePages g.pages.npages)).bind _).map _) = _
    rw [hcall, Option.bind_some, if_neg hfirst]
    rfl
  refine ⟨_, hstart, ⟨⟨_, usagePages g.pages.npages⟩, [], [], fun _ => [], fun _ => []⟩,
    zoneSizeLoop_spec _, ⟨hplaced, ⟨fun z hz => ?_, fun b hb => ?_⟩⟩,
    ⟨fun z hz => ?_, fun b hb => ?_, ⟨fun zi => rfl, fun zi => List.nodup_nil, fun zi z => ?_,
      fun z hz => ?_⟩, rfl⟩⟩
  · cases hz
  · cases hb
  · cases hz
  · cases hb
  · exact ⟨fun hz => (by cases hz), fun hz => (by cases hz.1)⟩
  · cases hz

/-- After `rt_system_heap_init`, whatever the callers allocate, free and store, in every state the
zones, their lists and their chunks are in order, no blocks share memory, and every call returns. -/
theorem zones_throughout (g : HeapRegion) (memory : Heap) :
    ∃ r, start g memory = some r ∧ ∀ es, Throughout step (WellFormed g.pages) r es := by
  obtain ⟨r, hr, hsound⟩ := start_sound g memory
  have hkeep : ∀ r e r', (∃ L, Sound g.pages r.heap r.live L) → step r e = some r' →
      ∃ L, Sound g.pages r'.heap r'.live L := by
    intro r e r' ⟨L, h⟩ hstep
    obtain ⟨he, hact⟩ := Option.ite_none_right_eq_some.mp hstep
    obtain ⟨t, ht, hsound⟩ := h.act he
    obtain rfl := Option.some.inj (ht.symm.trans hact)
    exact hsound
  exact ⟨r, hr, throughout_of_keep (fun _ => wellFormed_of_sound) hkeep hsound⟩

/-- Eighty pages. -/
def smallRegion : HeapRegion where
  beginAddr := 0x10000
  endAddr := 0x60000
  begin_pos := by decide
  room := by decide
  end_lt := by decide

/-- A memory of zeros. -/
def zeros : Heap where
  pages := ⟨0, fun _ => ⟨0, 0⟩⟩
  memusage _ := ⟨.free, 0⟩
  zoneArray _ := none
  zoneFree := none
  zoneFreeCnt := 0
  zoneSize := 0
  zone _ := ⟨0, 0, 0, none, 0, 0, 0, 0, none⟩
  cNext _ := none

/-- A zone gives the chunks it has never given before it gives one again. -/
example : ((start smallRegion zeros).bind fun r => run step r [.malloc 100, .malloc 20000,
    .malloc 101, .write zeros, .free ⟨69672, 100⟩, .malloc 99]).map HeapRun.live =
    some [⟨69880, 99⟩, ⟨69776, 101⟩, ⟨102400, 20000⟩] := by decide +kernel

end ControlRTT.Kernel.Slab

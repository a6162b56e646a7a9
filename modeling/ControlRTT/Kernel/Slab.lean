import ControlRTT.Kernel.RtDef
import ControlRTT.Kernel.SlabPage
import ControlRTT.Lib.LinkedList

/-! # The slab heap (slab.c)

A zone is a run of pages that is cut into chunks of one size, behind a header. A zone that has
chunks to give is in the list of its size, and one that has become free may move to the list of
free zones; a zone more than these may hold goes back to the page allocator. A pointer to a zone is
the number of its first page, as is the index of `memusage`, and a pointer to a chunk is its
address. Headers, links of free chunks and heads of free pages are kept apart here; who writes to a
block writes to whatever of them the block holds. -/
namespace ControlRTT.Kernel.Slab
open ControlRTT.Kernel.RtDef ControlRTT.Kernel.SlabPage ControlRTT.Lib.CInt

/-- `RT_MM_PAGE_SIZE` -/
def rtMmPageSize : Nat := 4096

/-- `ZALLOC_ZONE_LIMIT` -/
def zallocZoneLimit : Nat := 16 * 1024

/-- `ZALLOC_MIN_ZONE_SIZE` -/
def zallocMinZoneSize : Nat := 32 * 1024

/-- `ZALLOC_MAX_ZONE_SIZE` -/
def zallocMaxZoneSize : Nat := 128 * 1024

/-- `NZONES` -/
def nzones : Nat := 72

/-- `ZONE_RELEASE_THRESH` -/
def zoneReleaseThresh : Nat := 2

/-- `ZALLOC_SLAB_MAGIC` -/
def zallocSlabMagic : Int := 0x51ab51ab

/-- `sizeof(slab_zone)`: nine words. -/
def sizeofSlabZone : Nat := 36

/-- `MIN_CHUNK_SIZE` -/
def minChunkSize : Nat := 8

/-- `PAGE_TYPE_FREE`, `PAGE_TYPE_SMALL` and `PAGE_TYPE_LARGE`. -/
inductive PageType where
  | free
  | small
  | large
  deriving DecidableEq, Repr

/-- `struct memusage`: the type of a page, and the pages of a large block or the place of the page
in its zone. -/
structure Memusage where
  type : PageType
  size : Nat
  deriving DecidableEq, Repr

structure SlabZone where
  zMagic : Int
  zNfree : Nat
  zNmax : Nat
  zNext : Option Nat
  zBaseptr : Nat
  zUindex : Nat
  zChunksize : Nat
  zZoneindex : Nat
  zFreechunk : Option Nat

/-- The variables of the allocator, and what it keeps in memory: the usage of a page, the header a
page begins with, and the `c_next` at an address. -/
structure Heap where
  pages : PageHeap
  memusage : Nat → Memusage
  zoneArray : Nat → Option Nat
  zoneFree : Option Nat
  zoneFreeCnt : Nat
  zoneSize : Nat
  zone : Nat → SlabZone
  cNext : Nat → Option Nat

/-- `zone_limit`, which is set with `zone_size`. -/
def zoneLimit (zoneSize : Nat) : Nat := min (zoneSize / 4) zallocZoneLimit

/-- `zone_page_cnt` -/
def zonePageCnt (zoneSize : Nat) : Nat := zoneSize / rtMmPageSize

def Heap.setZone (s : Heap) (z : Nat) (h : SlabZone) : Heap :=
  { s with zone := Function.update s.zone z h }

/-! ## Sizes -/

/-- `(n + align - 1) & ~(align - 1)`, where `align` is a power of two. -/
def roundUp (n align : Nat) : Nat := rtAlignDown (n + (align - 1)) align

/-- The index of the zones for a size, and the size of their chunks. -/
def zoneindex (bytes : Nat) : Nat × Nat :=
  if bytes < 128 then
    let n := roundUp bytes 8
    (n / 8 - 1, n)
  else if bytes < 256 then
    let n := roundUp bytes 16
    (n / 16 + 7, n)
  else if bytes < 8192 then
    if bytes < 512 then
      let n := roundUp bytes 32
      (n / 32 + 15, n)
    else if bytes < 1024 then
      let n := roundUp bytes 64
      (n / 64 + 23, n)
    else if bytes < 2048 then
      let n := roundUp bytes 128
      (n / 128 + 31, n)
    else if bytes < 4096 then
      let n := roundUp bytes 256
      (n / 256 + 39, n)
    else
      let n := roundUp bytes 512
      (n / 512 + 47, n)
  else if bytes < 16384 then
    let n := roundUp bytes 1024
    (n / 1024 + 55, n)
  else (0, bytes)

/-- Where the chunks of a zone begin. -/
def zoneOffset (size : Nat) : Nat :=
  if (size ||| (size - 1)) + 1 = size <<< 1 then roundUp sizeofSlabZone size
  else roundUp sizeofSlabZone minChunkSize

/-! ## `rt_malloc` -/

/-- The loop that describes the `n` pages from `z` on. -/
def setUsage (f : Nat → Memusage) (z : Nat) : Nat → (Nat → Memusage) → Nat → Memusage
  | 0, m => m
  | n + 1, m => Function.update (setUsage f z n m) (z + n) (f n)

/-- A size from `zone_limit` on comes from the page allocator. -/
def mallocLarge (s : Heap) (size : Nat) : Option (Heap × Nat) :=
  let npages := rtAlign size rtMmPageSize / rtMmPageSize
  (rtPageAlloc s.pages npages).map fun (pages, chunk) =>
    if chunk = 0 then ({ s with pages }, 0)
    else ({ s with
      pages
      memusage := Function.update s.memusage chunk ⟨.large, npages⟩ }, chunk * rtMmPageSize)

/-- `z_nfree` is counted down; a zone that becomes empty leaves its list. -/
def countDown (s : Heap) (zi z : Nat) : Heap :=
  let h := s.zone z
  if h.zNfree - 1 = 0 then
    { s with zoneArray := Function.update s.zoneArray zi h.zNext }.setZone z
      { h with zNfree := 0, zNext := none }
  else s.setZone z { h with zNfree := h.zNfree - 1 }

/-- A chunk of a zone of the list: one that has never been used, if there is one. -/
def takeChunk (s : Heap) (zi size z : Nat) : Option (Heap × Nat) :=
  if (s.zone z).zNfree = 0 then none
  else
    let s := countDown s zi z
    let h := s.zone z
    if h.zUindex + 1 ≠ h.zNmax then
      some (s.setZone z { h with zUindex := h.zUindex + 1 }, h.zBaseptr + (h.zUindex + 1) * size)
    else
      match h.zFreechunk with
      | none => none
      | some chunk => some (s.setZone z { h with zFreechunk := s.cNext chunk }, chunk)

/-- A zone that is not in use: from the list of free zones, or new pages. -/
def getZone (s : Heap) : Option (Heap × Option Nat) :=
  match s.zoneFree with
  | some z =>
    some ({ s with zoneFree := (s.zone z).zNext, zoneFreeCnt := s.zoneFreeCnt - 1 }, some z)
  | none =>
    (rtPageAlloc s.pages (s.zoneSize / rtMmPageSize)).map fun (pages, z) =>
      if z = 0 then ({ s with pages }, none)
      else ({ s with
        pages
        memusage := setUsage (fun off => ⟨.small, off⟩) z (zonePageCnt s.zoneSize) s.memusage },
        some z)

/-- The header is written, the zone is put into its list, and its first chunk is given. -/
def initZone (s : Heap) (zi size z : Nat) : Heap × Nat :=
  let off := zoneOffset size
  let baseptr := z * rtMmPageSize + off
  ({ s with zoneArray := Function.update s.zoneArray zi (some z) }.setZone z {
      zMagic := zallocSlabMagic
      zNfree := (s.zoneSize - off) / size - 1
      zNmax := (s.zoneSize - off) / size
      zNext := s.zoneArray zi
      zBaseptr := baseptr
      zUindex := 0
      zChunksize := size
      zZoneindex := zi
      zFreechunk := none }, baseptr + 0 * size)

/-- The address of the memory, or zero; a call that fails an assertion does not return. -/
def rtMalloc (s : Heap) (size : Nat) : Option (Heap × Nat) :=
  if size = 0 then some (s, 0)
  else if zoneLimit s.zoneSize ≤ size then mallocLarge s size
  else
    let (zi, size) := zoneindex size
    if nzones ≤ zi then none
    else
      match s.zoneArray zi with
      | some z => takeChunk s zi size z
      | none =>
        (getZone s).map fun (s, z) =>
          match z with
          | none => (s, 0)
          | some z => initZone s zi size z

/-! ## `rt_free` -/

/-- `*pz`: the head of a list of zones, or the link of a zone in it. -/
def link (s : Heap) (zi : Nat) : Option Nat → Option Nat
  | none => s.zoneArray zi
  | some p => (s.zone p).zNext

/-- `*pz = z` -/
def setLink (s : Heap) (zi : Nat) (prev z : Option Nat) : Heap :=
  match prev with
  | none => { s with zoneArray := Function.update s.zoneArray zi z }
  | some p => s.setZone p { s.zone p with zNext := z }

/-- The loop that takes a zone out of its list. -/
def unlinkLoop (s : Heap) (zi z : Nat) : Nat → Option Nat → Option Heap
  | 0, _ => none
  | fuel + 1, prev =>
    match link s zi prev with
    | none => none
    | some b =>
      if b = z then some (setLink s zi prev (s.zone z).zNext)
      else unlinkLoop s zi z fuel (some b)

/-- The chunk is put into the list of its zone, and a zone that had none to give into its own. -/
def giveChunk (s : Heap) (z chunk : Nat) : Heap :=
  let h := s.zone z
  let s := { s with cNext := Function.update s.cNext chunk h.zFreechunk }
  if h.zNfree = 0 then
    { s with zoneArray := Function.update s.zoneArray h.zZoneindex (some z) }.setZone z
      { h with zFreechunk := some chunk, zNfree := h.zNfree + 1,
               zNext := s.zoneArray h.zZoneindex }
  else s.setZone z { h with zFreechunk := some chunk, zNfree := h.zNfree + 1 }

/-- The first of the free zones goes back to the page allocator. -/
def releaseZone (s : Heap) : Option Heap :=
  match s.zoneFree with
  | none => none
  | some z =>
    (rtPageFree s.pages z (s.zoneSize / rtMmPageSize)).map fun pages => { s with
      pages
      zoneFree := (s.zone z).zNext
      zoneFreeCnt := s.zoneFreeCnt - 1
      memusage := setUsage (fun _ => ⟨.free, 0⟩) z (zonePageCnt s.zoneSize) s.memusage }

/-- A zone leaves its list for that of the free zones. -/
def retireZone (s : Heap) (z : Nat) : Option Heap :=
  (unlinkLoop s (s.zone z).zZoneindex z (pageLimit + 1) none).map fun s =>
    { s with zoneFree := some z, zoneFreeCnt := s.zoneFreeCnt + 1 }.setZone z
      { s.zone z with zMagic := -1, zNext := s.zoneFree }

def rtFree (s : Heap) (ptr : Nat) : Option Heap :=
  if ptr = 0 then some s
  else
    let kup := s.memusage (ptr / rtMmPageSize)
    if kup.type = .large then
      -- the assertion of `rt_page_free` on its address
      if ptr % rtMmPageSize ≠ 0 then none
      else (rtPageFree s.pages (ptr / rtMmPageSize) kup.size).map fun pages => { s with
        pages
        memusage := Function.update s.memusage (ptr / rtMmPageSize) { kup with size := 0 } }
    else
      let z := ptr / rtMmPageSize - kup.size
      if (s.zone z).zMagic ≠ zallocSlabMagic then none
      else
        let s := giveChunk s z ptr
        let h := s.zone z
        if h.zNfree = h.zNmax ∧ (h.zNext ≠ none ∨ s.zoneArray h.zZoneindex ≠ some z) then
          (retireZone s z).bind fun s =>
            if zoneReleaseThresh < s.zoneFreeCnt then releaseZone s else some s
        else some s

/-! ## `rt_system_heap_init` -/

/-- The loop that doubles `zone_size`; it ends after two turns. -/
def zoneSizeLoop (limsize : Nat) : Nat → Nat → Nat
  | 0, zoneSize => zoneSize
  | fuel + 1, zoneSize =>
    if zoneSize < zallocMaxZoneSize ∧ zoneSize * 2 < limsize / 1024 then
      zoneSizeLoop limsize fuel (zoneSize * 2)
    else zoneSize

/-- The first page of the heap, from `begin_addr`. -/
def firstPage (beginAddr : Nat) : Nat := rtAlign beginAddr rtMmPageSize / rtMmPageSize

/-- The pages of the heap, up to `end_addr`. -/
def pageCount (beginAddr endAddr : Nat) : Nat :=
  (rtAlignDown endAddr rtMmPageSize - rtAlign beginAddr rtMmPageSize) / rtMmPageSize

/-- The pages of `memusage`. -/
def usagePages (npages : Nat) : Nat := rtAlign (npages * 4) rtMmPageSize / rtMmPageSize

/-- What a heap does without a `memusage` is left open. -/
def rtSystemHeapInit (s : Heap) (beginAddr endAddr : Nat) : Option Heap :=
  if rtAlignDown endAddr rtMmPageSize ≤ rtAlign beginAddr rtMmPageSize then some s
  else
    let npages := pageCount beginAddr endAddr
    (rtPageInit s.pages (firstPage beginAddr) npages).bind fun pages =>
      (rtPageAlloc pages (usagePages npages)).bind fun (pages, usage) =>
        if usage = 0 then none
        else some { s with
          pages
          zoneSize := zoneSizeLoop (npages * rtMmPageSize) 2 zallocMinZoneSize }

/-! ## Chunks -/

/-- The size of the chunks in the zones of an index: the distance from one size to the next is eight
bytes at first, and doubles every eight indices from 15 on. -/
def chunkOf (zi : Nat) : Nat :=
  8 * (zi + 1) + 8 * (zi - 15) + 16 * (zi - 23) + 32 * (zi - 31) + 64 * (zi - 39) +
    128 * (zi - 47) + 256 * (zi - 55) + 512 * (zi - 63)

/-- The zones of an index have chunks of one size, which is enough. -/
theorem zoneindex_spec {bytes : Nat} (hpos : 0 < bytes) (hlt : bytes < zallocZoneLimit) :
    (zoneindex bytes).1 < nzones ∧ (zoneindex bytes).2 = chunkOf (zoneindex bytes).1 ∧
      bytes ≤ (zoneindex bytes).2 := by
  cases hzi : zoneindex bytes with | _ zi n
  unfold zallocZoneLimit at hlt
  unfold zoneindex at hzi
  repeat' split at hzi
  all_goals
    obtain ⟨rfl, rfl⟩ := Prod.mk.inj hzi
    simp only [roundUp, rtAlignDown, nzones, chunkOf]
    omega

theorem le_chunkOf (zi : Nat) : minChunkSize ≤ chunkOf zi := by
  unfold chunkOf minChunkSize
  omega

/-- The sizes that a zone may have. -/
def ZoneSized (zoneSize : Nat) : Prop :=
  zoneSize = 32768 ∨ zoneSize = 65536 ∨ zoneSize = 131072

theorem ZoneSized.mod {zoneSize : Nat} (h : ZoneSized zoneSize) : zoneSize % rtMmPageSize = 0 := by
  rcases h with rfl | rfl | rfl <;> rfl

theorem ZoneSized.le {zoneSize : Nat} (h : ZoneSized zoneSize) : 32768 ≤ zoneSize := by
  rcases h with rfl | rfl | rfl <;> decide

/-- The chunks of a size below the limit of the zones are at most a quarter of a zone. -/
theorem zoneindex_le {bytes zoneSize : Nat} (hlt : bytes < zoneLimit zoneSize)
    (hsize : ZoneSized zoneSize) : 4 * (zoneindex bytes).2 ≤ zoneSize := by
  unfold ZoneSized at hsize
  cases hzi : zoneindex bytes with | _ zi n
  unfold zoneLimit zallocZoneLimit at hlt
  unfold zoneindex at hzi
  repeat' split at hzi
  all_goals
    obtain ⟨-, rfl⟩ := Prod.mk.inj hzi
    simp only [roundUp, rtAlignDown]
    omega

/-- The chunks begin behind the header, at most a chunk's size further. -/
theorem zoneOffset_spec {size : Nat} (h : minChunkSize ≤ size) :
    sizeofSlabZone ≤ zoneOffset size ∧ zoneOffset size < sizeofSlabZone + size := by
  have hround : ∀ align, 0 < align → sizeofSlabZone ≤ roundUp sizeofSlabZone align ∧
      roundUp sizeofSlabZone align < sizeofSlabZone + align := fun align hpos => by
    have hle := Nat.div_mul_le_self (sizeofSlabZone + (align - 1)) align
    have hlt := Nat.lt_div_mul_add (a := sizeofSlabZone + (align - 1)) hpos
    simp only [roundUp, rtAlignDown]
    omega
  unfold zoneOffset
  split
  · exact hround size (Nat.lt_of_lt_of_le (by decide) h)
  · obtain ⟨hle, hlt⟩ := hround minChunkSize (by decide)
    exact ⟨hle, Nat.lt_of_lt_of_le hlt (Nat.add_le_add_left h _)⟩

/-- A zone has room for two chunks of its size. -/
theorem two_chunks {size zoneSize : Nat} (h : minChunkSize ≤ size) (hle : 4 * size ≤ zoneSize)
    (hzone : 32768 ≤ zoneSize) : 2 ≤ (zoneSize - zoneOffset size) / size := by
  obtain ⟨-, hlt⟩ := zoneOffset_spec h
  unfold minChunkSize at h
  unfold sizeofSlabZone at hlt
  rw [Nat.le_div_iff_mul_le (by omega)]
  omega

theorem zoneSizeLoop_spec (limsize : Nat) :
    ZoneSized (zoneSizeLoop limsize 2 zallocMinZoneSize) := by
  unfold ZoneSized zallocMinZoneSize
  unfold zoneSizeLoop
  split_ifs
  · unfold zoneSizeLoop
    split_ifs
    · exact .inr (.inr rfl)
    · exact .inr (.inl rfl)
  · exact .inl rfl

/-- A size that can be aligned in 32 bits fits into its pages; one that cannot gets none. -/
theorem rtAlign_page {size : Nat} (h : size < 2 ^ 32) :
    rtAlign size rtMmPageSize / rtMmPageSize = 0 ∨
      size ≤ rtAlign size rtMmPageSize / rtMmPageSize * rtMmPageSize := by
  unfold rtAlign rtAlignDown rtMmPageSize u32
  omega

end ControlRTT.Kernel.Slab

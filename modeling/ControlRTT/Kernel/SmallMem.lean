import ControlRTT.Kernel.RtDef
import ControlRTT.Lib.Extents
import ControlRTT.Lib.Runs
import ControlRTT.Lib.Tiling
import ControlRTT.Lib.WordMem

/-! # The small-memory heap (mem.c)

A block begins with a `struct heap_mem`, whose links are offsets from `heap_ptr`; the
last header is `heap_end`. The memory is the words of the heap by their offsets, so
headers and the data of the callers share it, and a header that is written over data or
over another header shows. -/
namespace ControlRTT.Kernel.SmallMem
open ControlRTT.Kernel.RtDef ControlRTT.Lib.CInt ControlRTT.Lib.Extents ControlRTT.Lib.Runs
  ControlRTT.Lib.Tiling ControlRTT.Lib.WordMem

/-- `HEAP_MAGIC`. -/
def heapMagic : Nat := 0x1ea0

/-- `SIZEOF_STRUCT_MEM`. -/
def sizeofStructMem : Nat := 12

/-- `MIN_SIZE`, and `MIN_SIZE_ALIGNED`. -/
def minSize : Nat := 12

/-- `struct heap_mem`: two half words and two words. -/
structure HeapMem where
  magic : Nat
  used : Nat
  next : Nat
  prev : Nat
  deriving DecidableEq, Repr

structure Heap where
  heapPtr : Nat
  memSizeAligned : Nat
  mem : Mem
  lfree : Nat
  usedMem : Nat := 0
  maxMem : Nat := 0

/-- The header at an offset; the half words share a word, `magic` the low half of it. -/
def readHdr (m : Mem) (o : Nat) : HeapMem where
  magic := m o % 65536
  used := m o / 65536
  next := m (o + 4)
  prev := m (o + 8)

def writeHdr (m : Mem) (o : Nat) (h : HeapMem) : Mem :=
  ((m.set o (h.magic + 65536 * h.used)).set (o + 4) h.next).set (o + 8) h.prev

/-- `mem->used = v`; the other half word stays. -/
def setUsed (m : Mem) (o v : Nat) : Mem := m.set o (m o % 65536 + 65536 * v)

/-- `mem->magic = v`. -/
def setMagic (m : Mem) (o v : Nat) : Mem := m.set o (v + 65536 * (m o / 65536))

/-- `mem->next = v`. -/
def setNext (m : Mem) (o v : Nat) : Mem := m.set (o + 4) v

/-- `mem->prev = v`. -/
def setPrev (m : Mem) (o v : Nat) : Mem := m.set (o + 8) v

namespace Heap

/-- The offset of `heap_end`. -/
def heapEnd (s : Heap) : Nat := s.memSizeAligned + sizeofStructMem

def hdr (s : Heap) (o : Nat) : HeapMem := readHdr s.mem o

/-- `mem->next = next; next->prev = mem`. -/
def link (s : Heap) (mem next : Nat) : Heap :=
  { s with mem := setPrev (setNext s.mem mem next) next mem }

end Heap

/-- The memory is what it was before; the statistics are still zero. -/
def rtSystemHeapInit (mem : Mem) (beginAddr endAddr : Nat) : Option Heap :=
  let beginAlign := rtAlign beginAddr rtAlignSize
  let endAlign := rtAlignDown endAddr rtAlignSize
  if endAlign > 2 * sizeofStructMem ∧ endAlign - 2 * sizeofStructMem ≥ beginAlign then
    let memSizeAligned := endAlign - beginAlign - 2 * sizeofStructMem
    let next := memSizeAligned + sizeofStructMem
    let mem := writeHdr mem 0 { magic := heapMagic, next := next, prev := 0, used := 0 }
    let mem := writeHdr mem next { magic := heapMagic, used := 1, next := next, prev := next }
    some { heapPtr := beginAlign, memSizeAligned := memSizeAligned, mem := mem, lfree := 0 }
  else none

/-- The first half of `plug_holes`: `mem` is joined with the block behind it. -/
def plugForward (s : Heap) (mem : Nat) : Heap :=
  let nmem := (s.hdr mem).next
  if mem ≠ nmem ∧ (s.hdr nmem).used = 0 ∧ nmem ≠ s.heapEnd then
    { s.link mem (s.hdr nmem).next with lfree := if s.lfree = nmem then mem else s.lfree }
  else s

/-- The second half: `mem` is joined with the block before it. -/
def plugBackward (s : Heap) (mem : Nat) : Heap :=
  let pmem := (s.hdr mem).prev
  if pmem ≠ mem ∧ (s.hdr pmem).used = 0 then
    { s.link pmem (s.hdr mem).next with lfree := if s.lfree = mem then pmem else s.lfree }
  else s

/-- A failed assertion does not return. -/
def plugHoles (s : Heap) (mem : Nat) : Option Heap :=
  if mem < s.heapEnd ∧ (s.hdr mem).used = 0 then some (plugBackward (plugForward s mem) mem)
  else none

/-- A walk along the chain visits no header twice, so this many steps reach its end. -/
def Heap.fuel (s : Heap) : Nat := s.heapEnd + 1

/-- The search of `rt_malloc` from `ptr` on: `some none` if no block is found, `none` if
it does not end. -/
def findFit (s : Heap) (size : Nat) : Nat → Nat → Option (Option Nat)
  | 0, _ => none
  | fuel + 1, ptr =>
    if ptr < usub s.memSizeAligned size then
      if (s.hdr ptr).used = 0 ∧ size ≤ usub (s.hdr ptr).next (u32 (ptr + sizeofStructMem)) then
        some (some ptr)
      else findFit s size fuel (s.hdr ptr).next
    else some none

/-- `while (lfree->used && lfree != heap_end) lfree = lfree->next`. -/
def nextFree (s : Heap) : Nat → Nat → Option Nat
  | 0, _ => none
  | fuel + 1, lfree =>
    if (s.hdr lfree).used ≠ 0 ∧ lfree ≠ s.heapEnd then nextFree s fuel (s.hdr lfree).next
    else some lfree

/-- `used_mem += n`, and `max_mem` follows. -/
def Heap.addUsed (s : Heap) (n : Nat) : Heap :=
  let usedMem := u32 (s.usedMem + n)
  { s with usedMem := usedMem, maxMem := if s.maxMem < usedMem then usedMem else s.maxMem }

/-- A new header is cut into the block at `ptr`, `size` bytes behind its own. -/
def splitBlock (s : Heap) (ptr size : Nat) : Heap :=
  let ptr2 := ptr + sizeofStructMem + size
  let next := (s.hdr ptr).next
  let mem := writeHdr s.mem ptr2 { magic := heapMagic, used := 0, next := next, prev := ptr }
  let mem := setNext mem ptr ptr2
  { s with
    mem := if next ≠ s.memSizeAligned + sizeofStructMem then setPrev mem next ptr2 else mem }

/-- The block at `ptr` is split if what is left over is long enough for another one. -/
def cutBlock (s : Heap) (size ptr : Nat) : Heap :=
  let next := (s.hdr ptr).next
  if usub next (u32 (ptr + sizeofStructMem)) ≥ u32 (size + sizeofStructMem + minSize) then
    (splitBlock s ptr size).addUsed (size + sizeofStructMem)
  else s.addUsed (usub next ptr)

/-- What `rt_malloc` does with the block that the search has found; `used` is set in both
branches of the split. -/
def takeBlock (s : Heap) (size ptr : Nat) : Option Heap :=
  let s := cutBlock s size ptr
  let s := { s with mem := setMagic (setUsed s.mem ptr 1) ptr heapMagic }
  if ptr = s.lfree then
    (nextFree s s.fuel s.lfree).map fun lfree => { s with lfree := lfree }
  else some s

/-- What `rt_malloc` does while it holds the semaphore, and its assertions behind it. -/
def allocate (s : Heap) (size : Nat) : Option (Heap × Nat) :=
  (findFit s size s.fuel s.lfree).bind fun
    | none => some (s, 0)
    | some ptr => (takeBlock s size ptr).bind fun s =>
      if s.heapPtr + ptr + sizeofStructMem + size ≤ s.heapPtr + s.heapEnd ∧
          (s.heapPtr + ptr + sizeofStructMem) % rtAlignSize = 0 ∧
          (s.heapPtr + ptr) % rtAlignSize = 0 then
        some (s, s.heapPtr + ptr + sizeofStructMem)
      else none

/-- The result is a pointer to data, or zero. The calls are those of one thread at a time:
`heap_sem` lets no second one in. -/
def rtMalloc (s : Heap) (size : Nat) : Option (Heap × Nat) :=
  if size = 0 then some (s, 0)
  else
    let size := rtAlign size rtAlignSize
    if size > s.memSizeAligned then some (s, 0)
    else allocate s (if size < minSize then minSize else size)

/-- The offset of the header of `rmem`. -/
def Heap.memOf (s : Heap) (rmem : Nat) : Nat := usub rmem (s.heapPtr + sizeofStructMem)

def rtFree (s : Heap) (rmem : Nat) : Option Heap :=
  if rmem = 0 then some s
  else if rmem % rtAlignSize ≠ 0 ∨ rmem < s.heapPtr ∨ rmem ≥ s.heapPtr + s.heapEnd then none
  else
    let ptr := s.memOf rmem
    let mem := s.hdr ptr
    if mem.used = 0 ∨ mem.magic ≠ heapMagic then none
    else
      let s := { s with
        mem := setMagic (setUsed s.mem ptr 0) ptr heapMagic
        lfree := if ptr < s.lfree then ptr else s.lfree
        usedMem := usub s.usedMem (usub mem.next ptr) }
      plugHoles s ptr

/-- `rt_memcpy` of whole words between blocks that do not overlap. -/
def copy (m : Mem) (dst src n : Nat) : Mem := fun x =>
  if dst ≤ x ∧ x < dst + n then m (x - dst + src) else m x

/-- `rt_memset` to zero: the bytes from `dst` on, the lowest byte of a word first. -/
def clear (m : Mem) (dst n : Nat) : Mem := fun x =>
  if dst ≤ x ∧ x + 4 ≤ dst + n then 0
  else if dst ≤ x ∧ x < dst + n then m x / 256 ^ (dst + n - x) * 256 ^ (dst + n - x)
  else m x

/-- The size of the data of the block at `ptr`. -/
def Heap.dataSize (s : Heap) (ptr : Nat) : Nat :=
  usub (usub (s.hdr ptr).next ptr) sizeofStructMem

/-- `rt_realloc` to a size that leaves room for another block. -/
def shrink (s : Heap) (ptr newsize : Nat) : Option Heap :=
  plugHoles
    (splitBlock { s with usedMem := usub s.usedMem (s.dataSize ptr - newsize) } ptr newsize)
    (ptr + sizeofStructMem + newsize)

/-- `rt_realloc` to another block. -/
def move (s : Heap) (rmem newsize : Nat) : Option (Heap × Nat) :=
  let size := s.dataSize (s.memOf rmem)
  (rtMalloc s newsize).bind fun (t, nmem) =>
    if nmem ≠ 0 then
      let mem := copy t.mem (t.memOf nmem + sizeofStructMem) (s.memOf rmem + sizeofStructMem)
        (if size < newsize then size else newsize)
      (rtFree { t with mem := mem } rmem).map fun t => (t, nmem)
    else some (t, nmem)

/-- `rt_realloc` of a block to an aligned size. -/
def resize (s : Heap) (rmem newsize : Nat) : Option (Heap × Nat) :=
  if s.dataSize (s.memOf rmem) = newsize then some (s, rmem)
  else if u32 (newsize + sizeofStructMem + minSize) < s.dataSize (s.memOf rmem) then
    (shrink s (s.memOf rmem) newsize).map fun s => (s, rmem)
  else move s rmem newsize

def rtRealloc (s : Heap) (rmem newsize : Nat) : Option (Heap × Nat) :=
  if rtAlign newsize rtAlignSize > s.memSizeAligned then some (s, 0)
  else if rtAlign newsize rtAlignSize = 0 then (rtFree s rmem).map fun s => (s, 0)
  else if rmem = 0 then rtMalloc s (rtAlign newsize rtAlignSize)
  else if rmem < s.heapPtr ∨ rmem ≥ s.heapPtr + s.heapEnd then some (s, rmem)
  else resize s rmem (rtAlign newsize rtAlignSize)

def rtCalloc (s : Heap) (count size : Nat) : Option (Heap × Nat) :=
  (rtMalloc s (u32 (count * size))).map fun (s, p) =>
    if p ≠ 0 then
      ({ s with mem := clear s.mem (s.memOf p + sizeofStructMem) (u32 (count * size)) }, p)
    else (s, p)

end ControlRTT.Kernel.SmallMem

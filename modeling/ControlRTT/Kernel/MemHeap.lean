import ControlRTT.Kernel.RtDef
import ControlRTT.Lib.WordMem

/-! # Memory heap objects (memheap.c)

An item begins with a `struct rt_memheap_item`: six words that link it to the items beside
it in memory and, while it is free, into the free list, whose header is a part of the heap
object. Memory is the words by their addresses, so headers and the data of the callers share
it, and a header that is built over data or over another header shows. The calls are those of
one thread at a time: the semaphore of the heap lets no second one in. -/
namespace ControlRTT.Kernel.MemHeap
open ControlRTT.Kernel.RtDef ControlRTT.Lib.CInt ControlRTT.Lib.WordMem

/-- `RT_MEMHEAP_MAGIC`. -/
def rtMemheapMagic : Nat := 0x1ea01ea0

/-- `RT_MEMHEAP_MASK`, which is also `~RT_MEMHEAP_USED`. -/
def rtMemheapMask : Nat := 0xfffffffe

/-- `RT_MEMHEAP_USED`. -/
def rtMemheapUsed : Nat := 0x01

/-- `RT_MEMHEAP_MINIALLOC`. -/
def rtMemheapMinialloc : Nat := 12

/-- `RT_MEMHEAP_SIZE`, the size of a header. -/
def rtMemheapSize : Nat := 24

/-! ## Headers -/

section
variable (m : Mem) (item v : Nat)

/-- The fields of a header. -/
def magic : Nat := m item

def poolPtr : Nat := m (item + 4)

def next : Nat := m (item + 8)

def prev : Nat := m (item + 12)

def nextFree : Nat := m (item + 16)

def prevFree : Nat := m (item + 20)

def setMagic : Mem := m.set item v

def setPoolPtr : Mem := m.set (item + 4) v

def setNext : Mem := m.set (item + 8) v

def setPrev : Mem := m.set (item + 12) v

def setNextFree : Mem := m.set (item + 16) v

def setPrevFree : Mem := m.set (item + 20) v

/-- `RT_MEMHEAP_IS_USED`. -/
def isUsed : Bool := magic m item &&& rtMemheapUsed ≠ 0

/-- The check of a magic number. -/
def isItem : Bool := magic m item &&& rtMemheapMask = rtMemheapMagic

/-- `MEMITEM_SIZE`. -/
def memitemSize : Nat := usub (usub (next m item) item) rtMemheapSize

/-- Out of the free list: `item->next_free->prev_free = item->prev_free`, and the other way. -/
def unlinkFree : Mem :=
  let m := setPrevFree m (nextFree m item) (prevFree m item)
  setNextFree m (prevFree m item) (nextFree m item)

/-- `rt_memheap_alloc` clears the links as well. -/
def removeFree : Mem := setPrevFree (setNextFree (unlinkFree m item) item 0) item 0

/-- Into the free list, behind its header. -/
def insertFree (freeList : Nat) : Mem :=
  let m := setNextFree m item (nextFree m freeList)
  let m := setPrevFree m item freeList
  let m := setPrevFree m (nextFree m freeList) item
  setNextFree m freeList item

/-- A free item is built at `newPtr`, between the item at `header` and the next one. -/
def putItem (heap header newPtr : Nat) : Mem :=
  let m := setMagic m newPtr rtMemheapMagic
  let m := setPoolPtr m newPtr heap
  let m := setPrev m newPtr header
  let m := setNext m newPtr (next m header)
  let m := setPrev m (next m header) newPtr
  setNext m header newPtr

/-- An item is joined with the one behind it. -/
def mergeNext (behind : Nat) : Mem :=
  let m := setPrev m (next m behind) item
  setNext m item (next m behind)

/-- An item is joined with the one before it. -/
def mergePrev : Mem :=
  let m := setNext m (prev m item) (next m item)
  setPrev m (next m item) (prev m item)

/-- `rt_memheap_realloc` joins the item behind with the one before it. -/
def unlinkItem : Mem :=
  let m := setPrev m (next m item) (prev m item)
  setNext m (prev m item) (next m item)

end

/-! ## The heap -/

/-- What `rt_memheap_init` sets for good; `self` is the address of the object, `free_list`
that of its `free_header`. -/
structure Pool where
  self : Nat
  startAddr : Nat
  poolSize : Nat
  freeList : Nat
  deriving DecidableEq, Repr

structure Memheap extends Pool where
  mem : Mem
  availableSize : Nat
  maxUsedSize : Nat

/-- The new value of `available_size`; `max_used_size` follows. -/
def Memheap.leave (s : Memheap) (availableSize : Nat) : Memheap :=
  { s with
    availableSize := availableSize
    maxUsedSize := if usub s.poolSize availableSize > s.maxUsedSize then
      usub s.poolSize availableSize else s.maxUsedSize }

/-- The header of the free list, an item that covers the pool, and a used one without data
behind it. -/
def rtMemheapInit (mem : Mem) (memheap freeHeader startAddr size : Nat) : Memheap :=
  let poolSize := rtAlignDown size rtAlignSize
  let availableSize := usub poolSize (2 * rtMemheapSize)
  let mem := setMagic mem freeHeader rtMemheapMagic
  let mem := setPoolPtr mem freeHeader memheap
  let mem := setPrev (setNext mem freeHeader 0) freeHeader 0
  let mem := setPrevFree (setNextFree mem freeHeader freeHeader) freeHeader freeHeader
  let item := startAddr
  let tailer := u32 (item + availableSize + rtMemheapSize)
  let mem := setMagic mem item rtMemheapMagic
  let mem := setPoolPtr mem item memheap
  let mem := setPrev (setNext mem item tailer) item tailer
  let mem := insertFree mem item freeHeader
  let mem := setMagic mem tailer (rtMemheapMagic ||| rtMemheapUsed)
  let mem := setPoolPtr mem tailer memheap
  let mem := setPrev (setNext mem tailer startAddr) tailer startAddr
  let mem := setPrevFree (setNextFree mem tailer 0) tailer 0
  { self := memheap
    startAddr := startAddr
    poolSize := poolSize
    freeList := freeHeader
    mem := mem
    availableSize := availableSize
    maxUsedSize := usub poolSize availableSize }

/-- The size that is looked for. -/
def request (size : Nat) : Nat :=
  let size := rtAlign size rtAlignSize
  if size < rtMemheapMinialloc then rtMemheapMinialloc else size

/-- The search along the free list; `none` if it does not end. -/
def findFree (s : Memheap) (size : Nat) : Nat → Nat → Nat → Option (Nat × Nat)
  | 0, _, _ => none
  | fuel + 1, headerPtr, freeSize =>
    if headerPtr ≠ s.freeList ∧ freeSize < size then
      let freeSize := memitemSize s.mem headerPtr
      findFree s size fuel (if freeSize < size then nextFree s.mem headerPtr else headerPtr)
        freeSize
    else some (headerPtr, freeSize)

/-- The item at `headerPtr`, of `freeSize` bytes, is handed out, cut to `size` bytes if what
is left over is long enough for another one. -/
def handOut (s : Memheap) (size headerPtr freeSize : Nat) : Memheap :=
  let s :=
    if freeSize ≥ u32 (size + rtMemheapSize + rtMemheapMinialloc) then
      let newPtr := u32 (headerPtr + size + rtMemheapSize)
      let mem := putItem s.mem s.self headerPtr newPtr
      let mem := removeFree mem headerPtr
      let mem := insertFree mem newPtr s.freeList
      Memheap.leave { s with mem := mem } (usub (usub s.availableSize size) rtMemheapSize)
    else
      let s := s.leave (usub s.availableSize freeSize)
      { s with mem := removeFree s.mem headerPtr }
  { s with mem := setMagic s.mem headerPtr (magic s.mem headerPtr ||| rtMemheapUsed) }

/-- The result is a pointer to data, or zero. A walk along the free list meets each of its
items once, so its steps are fewer than the bytes of the pool. -/
def rtMemheapAlloc (s : Memheap) (size : Nat) : Option (Memheap × Nat) :=
  let size := request size
  if size < s.availableSize then
    (findFree s size s.poolSize (nextFree s.mem s.freeList) 0).map fun (headerPtr, freeSize) =>
      if freeSize ≥ size then (handOut s size headerPtr freeSize, headerPtr + rtMemheapSize)
      else (s, 0)
  else some (s, 0)

/-- `rt_memheap_free` joins the item with a free one before it; the last component is
`insert_header`. -/
def joinLeft (s : Memheap) (headerPtr : Nat) : Memheap × Nat × Bool :=
  if isUsed s.mem (prev s.mem headerPtr) then (s, headerPtr, true)
  else
    let mem := mergePrev s.mem headerPtr
    ({ s with mem := mem, availableSize := u32 (s.availableSize + rtMemheapSize) },
      prev mem headerPtr, false)

/-- It joins the item with a free one behind it. -/
def joinRight (s : Memheap) (headerPtr : Nat) : Memheap :=
  if isUsed s.mem (next s.mem headerPtr) then s
  else
    let newPtr := next s.mem headerPtr
    { s with
      mem := unlinkFree (mergeNext s.mem headerPtr newPtr) newPtr
      availableSize := u32 (s.availableSize + rtMemheapSize) }

/-- What `rt_memheap_free` does with the item of a pointer. -/
def takeBack (s : Memheap) (headerPtr : Nat) : Memheap :=
  let mem := setMagic s.mem headerPtr (magic s.mem headerPtr &&& rtMemheapMask)
  let s := { s with
    mem := mem, availableSize := u32 (s.availableSize + memitemSize mem headerPtr) }
  let (s, headerPtr, insertHeader) := joinLeft s headerPtr
  let s := joinRight s headerPtr
  if insertHeader then { s with mem := insertFree s.mem headerPtr s.freeList } else s

/-- A failed assertion does not return. The heap is the one the header names; there is one. -/
def rtMemheapFree (s : Memheap) (ptr : Nat) : Option Memheap :=
  if ptr = 0 then some s
  else
    let headerPtr := usub ptr rtMemheapSize
    if isItem s.mem headerPtr ∧ isUsed s.mem headerPtr ∧ isItem s.mem (next s.mem headerPtr) ∧
        poolPtr s.mem headerPtr = s.self then
      some (takeBack s headerPtr)
    else none

/-- The item behind is free, and long enough to give what is asked for. -/
def CanGrow (m : Mem) (headerPtr oldsize newsize : Nat) : Prop :=
  let nextPtr := next m headerPtr
  isUsed m nextPtr = false ∧
    u32 (memitemSize m nextPtr + oldsize) > u32 (newsize + rtMemheapMinialloc)

instance (m : Mem) (headerPtr oldsize newsize : Nat) :
    Decidable (CanGrow m headerPtr oldsize newsize) :=
  inferInstanceAs (Decidable (_ ∧ _))

/-- `rt_memheap_realloc` in place: what is left of the item behind is built anew. -/
def grow (s : Memheap) (ptr headerPtr oldsize newsize : Nat) : Memheap :=
  let nextPtr := next s.mem headerPtr
  let s := s.leave (usub s.availableSize (usub newsize oldsize))
  let mem := unlinkFree s.mem nextPtr
  let mem := unlinkItem mem nextPtr
  let nextPtr := u32 (ptr + newsize)
  let mem := putItem mem s.self headerPtr nextPtr
  { s with mem := insertFree mem nextPtr s.freeList }

/-- `rt_memcpy` of whole words between items that do not overlap. -/
def copy (m : Mem) (dst src n : Nat) : Mem := fun x =>
  if dst ≤ x ∧ x < dst + n then m (x - dst + src) else m x

/-- `rt_memheap_realloc` to another item. -/
def move (s : Memheap) (ptr oldsize newsize : Nat) : Option (Memheap × Nat) :=
  (rtMemheapAlloc s newsize).bind fun (s, newPtr) =>
    if newPtr ≠ 0 then
      let mem := copy s.mem newPtr ptr (if oldsize < newsize then oldsize else newsize)
      (rtMemheapFree { s with mem := mem } ptr).map fun s => (s, newPtr)
    else some (s, newPtr)

/-- The item that `rt_memheap_realloc` has cut off is joined with a free one behind it. -/
def joinRest (s : Memheap) (newPtr : Nat) : Memheap :=
  if isUsed s.mem (next s.mem newPtr) then s
  else
    let freePtr := next s.mem newPtr
    { s with
      availableSize := usub s.availableSize (memitemSize s.mem freePtr)
      mem := unlinkFree (mergeNext s.mem newPtr freePtr) freePtr }

/-- `rt_memheap_realloc` to a size that leaves room for another item. -/
def shrink (s : Memheap) (headerPtr newsize : Nat) : Memheap :=
  let newPtr := u32 (headerPtr + newsize + rtMemheapSize)
  let s := joinRest { s with mem := putItem s.mem s.self headerPtr newPtr } newPtr
  let mem := insertFree s.mem newPtr s.freeList
  { s with mem := mem, availableSize := u32 (s.availableSize + memitemSize mem newPtr) }

/-- `rt_memheap_realloc` of an item to a size that is not zero. -/
def resize (s : Memheap) (ptr newsize : Nat) : Option (Memheap × Nat) :=
  let headerPtr := usub ptr rtMemheapSize
  let oldsize := memitemSize s.mem headerPtr
  if newsize > oldsize then
    if next s.mem headerPtr > headerPtr then
      if CanGrow s.mem headerPtr oldsize newsize then
        some (grow s ptr headerPtr oldsize newsize, ptr)
      else move s ptr oldsize newsize
    else none
  else if u32 (newsize + rtMemheapSize + rtMemheapMinialloc) ≥ oldsize then some (s, ptr)
  else some (shrink s headerPtr newsize, ptr)

def rtMemheapRealloc (s : Memheap) (ptr newsize : Nat) : Option (Memheap × Nat) :=
  if newsize = 0 then (rtMemheapFree s ptr).map fun s => (s, 0)
  else if ptr = 0 then rtMemheapAlloc s (request newsize)
  else resize s ptr (request newsize)

end ControlRTT.Kernel.MemHeap

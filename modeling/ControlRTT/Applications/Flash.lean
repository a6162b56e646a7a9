import ControlRTT.Lib.NorFlash

/-! # The flash driver

`STMFLASH_Write` (flash.c) and what it calls. The device is the memory and how often
each word has been requested; the answers of the HAL are a parameter. Addresses and
counts are naturals: a call's range stays below `2^32`, so only the sector number the
driver computes can wrap. -/
namespace ControlRTT.Applications.Flash
open ControlRTT.Lib.CInt ControlRTT.Lib.NorFlash

/-! ## Geometry (flash.h, flash.c, the device header) -/

def flashBase : Nat := 0x08000000
def stm32FlashSize : Nat := 1024
def flashAline : Nat := 4
def stmSectorSize : Nat := 2048

/-- Where the configuration record is kept (main.c). -/
def flashDataAddress : Nat := 0x0801A000

/-- Words in a software page. -/
def pageWords : Nat := stmSectorSize / flashAline

/-- The hardware sector of a byte: four of 16 KB, one of 64 KB, seven of 128 KB. -/
def sectorOf (x : Nat) : Option Nat :=
  if x < flashBase then none
  else if x < flashBase + 0x10000 then some ((x - flashBase) / 0x4000)
  else if x < flashBase + 0x20000 then some 4
  else if x < flashBase + 0x100000 then some (4 + (x - flashBase) / 0x20000)
  else none

/-! ## The HAL -/

inductive HalStatus where
  | ok
  | error
  | busy
  | timeout
  deriving DecidableEq, Repr

/-- The answers of the HAL: to the request for the word at `addr` that comes after
`earlier` others for that address, and to the `n`th call of `HAL_FLASH_Lock` and of
`HAL_FLASH_Unlock`. A request that is not answered `HAL_OK` may have programmed the
word all the same (`despite`: the status is that of the wait after it). No run asks
for the same answer twice, so every sequence of answers a run can get is one of these. -/
structure HalAnswers where
  program : (addr : Nat) → (earlier : Nat) → HalStatus
  despite : (addr : Nat) → (earlier : Nat) → Bool
  lock : Nat → HalStatus
  unlock : Nat → HalStatus

/-- Whether a request programs its word. -/
def HalAnswers.programs (hal : HalAnswers) (addr earlier : Nat) : Bool :=
  hal.program addr earlier = .ok || hal.despite addr earlier

/-- Every call succeeds. -/
def allOk : HalAnswers := ⟨fun _ _ => .ok, fun _ _ => false, fun _ => .ok, fun _ => .ok⟩

/-- The memory, how many requests have been made for the word at each address, and the
number of lock and unlock calls. -/
structure FlashDev where
  mem : Mem
  asked : Nat → Nat := fun _ => 0
  locks : Nat := 0
  unlocks : Nat := 0

/-- A device on which no request has been made yet. -/
def FlashDev.idle (m : Mem) : FlashDev := { mem := m }

def halFlashProgram (hal : HalAnswers) (d : FlashDev) (addr : Nat) (w : Word) :
    HalStatus × FlashDev :=
  (hal.program addr (d.asked addr), { d with
    mem := if hal.programs addr (d.asked addr) then programWord d.mem addr w else d.mem
    asked := fun b => d.asked b + if b = addr then 1 else 0 })

@[simp] theorem halFlashProgram_status (hal : HalAnswers) (d : FlashDev) (addr : Nat) (w : Word) :
    (halFlashProgram hal d addr w).1 = hal.program addr (d.asked addr) := rfl

def halFlashLock (hal : HalAnswers) (d : FlashDev) : HalStatus × FlashDev :=
  (hal.lock d.locks, { d with locks := d.locks + 1 })

def halFlashUnlock (hal : HalAnswers) (d : FlashDev) : HalStatus × FlashDev :=
  (hal.unlock d.unlocks, { d with unlocks := d.unlocks + 1 })

/-- `FLASH_Erase_Sector` blanks the sector of the number in the field `SNB` of `FLASH_CR`,
which has five bits. The bits above them fall on `STRT`, which is set next anyway, and on
reserved ones. -/
def flashEraseSector (d : FlashDev) (sector : Nat) : FlashDev :=
  { d with mem := eraseRegion d.mem fun x => sectorOf x = some (sector % 32) }

/-! ## Reading -/

def stmflashReadAllWord (m : Mem) (faddr : Nat) : Word := readWord m faddr

/-- `STMFLASH_Read_AllWord`: word `i` of the buffer, for `i < NumToRead`. -/
def stmflashRead_AllWord (m : Mem) (readAddr : Nat) (i : Nat) : Word :=
  stmflashReadAllWord m (readAddr + 4 * i)

/-! ## Programming without a check -/

/-- The retries after a refused request: at most `n`, until one is accepted. -/
def retry (hal : HalAnswers) (addr : Nat) (w : Word) : Nat → FlashDev → Bool × FlashDev
  | 0, d => (false, d)
  | n + 1, d =>
    let r := halFlashProgram hal d addr w
    if r.1 = .ok then (true, r.2) else retry hal addr w n r.2

/-- `STMFLASH_Write_NoCheck`. Only `HAL_ERROR` is retried; a word that is busy or
timed out counts as written. -/
def stmflashWriteNoCheck (hal : HalAnswers) :
    FlashDev → (writeAddr : Nat) → (pBuffer : Nat → Word) → (numToWrite : Nat) →
      HalStatus × FlashDev
  | d, _, _, 0 => (.ok, d)
  | d, writeAddr, pBuffer, n + 1 =>
    let r := halFlashProgram hal d writeAddr (pBuffer 0)
    if r.1 = .error then
      let q := retry hal writeAddr (pBuffer 0) 10 r.2
      if q.1 then stmflashWriteNoCheck hal q.2 (writeAddr + 4) (fun i => pBuffer (i + 1)) n
      else (.error, q.2)
    else stmflashWriteNoCheck hal r.2 (writeAddr + 4) (fun i => pBuffer (i + 1)) n

/-! ## Writing -/

def getPage (addr : Nat) : Nat :=
  if addr < flashBase + 0x100000 then (addr - flashBase) / stmSectorSize
  else (addr - (flashBase + 0x100000)) / stmSectorSize

/-- What `STMFLASH_Write` passes to `FLASH_Erase_Sector`, a 32-bit number. -/
def eraseNumber (writeAddr : Nat) : Nat := (getPage writeAddr * 0x1000 + 0x08000000) % 2 ^ 32

/-- Whether the page read into the buffer holds a word that is not blank. -/
def needErase (buf : Nat → Word) : Bool := (List.range pageWords).any fun i => buf i != blank

/-- The loop variables of `STMFLASH_Write`. Each round writes `secremain` words,
at least one unless nothing is left. -/
structure Cursor where
  writeAddr : Nat
  secpos : Nat
  secoff : Nat
  secremain : Nat
  numToWrite : Nat
  remain_le : secremain ≤ numToWrite
  progress : secremain = numToWrite ∨ 0 < secremain

namespace Cursor

/-- The variables on entry of the loop. -/
def start (writeAddr numToWrite : Nat) : Cursor where
  writeAddr := writeAddr
  secpos := (writeAddr - flashBase) / stmSectorSize
  secoff := (writeAddr - flashBase) % stmSectorSize / flashAline
  secremain := min numToWrite (pageWords - (writeAddr - flashBase) % stmSectorSize / flashAline)
  numToWrite := numToWrite
  remain_le := Nat.min_le_left ..
  progress := by
    have : (writeAddr - flashBase) % 2048 < 2048 := Nat.mod_lt _ (by decide)
    simp only [pageWords, stmSectorSize, flashAline]
    omega

/-- The variables after a round that was not the last. -/
def next (c : Cursor) : Cursor where
  writeAddr := c.writeAddr + c.secremain * flashAline
  secpos := c.secpos + 1
  secoff := 0
  secremain := min (c.numToWrite - c.secremain) pageWords
  numToWrite := c.numToWrite - c.secremain
  remain_le := Nat.min_le_left ..
  progress := by
    simp only [pageWords, stmSectorSize, flashAline]
    omega

/-- The address of the page the round works on. -/
def page (c : Cursor) : Nat := c.secpos * stmSectorSize + flashBase

@[simp] theorem next_writeAddr (c : Cursor) :
    c.next.writeAddr = c.writeAddr + c.secremain * flashAline := rfl
@[simp] theorem next_secoff (c : Cursor) : c.next.secoff = 0 := rfl
@[simp] theorem next_secremain (c : Cursor) :
    c.next.secremain = min (c.numToWrite - c.secremain) pageWords := rfl
@[simp] theorem next_numToWrite (c : Cursor) :
    c.next.numToWrite = c.numToWrite - c.secremain := rfl
@[simp] theorem next_page (c : Cursor) : c.next.page = c.page + stmSectorSize := by
  have hmul : (c.secpos + 1) * stmSectorSize = c.secpos * stmSectorSize + stmSectorSize :=
    Nat.succ_mul ..
  simp only [page, next, hmul]
  omega

end Cursor

/-- What a round, and then the loop, leaves: how the programming went, the device,
the page and `STMFLASH_BUF`. -/
structure Round where
  status : HalStatus
  dev : FlashDev
  page : Nat
  buf : Nat → Word

/-- The page in the buffer with the round's words put over it. -/
def mergeWords (c : Cursor) (pBuffer buf : Nat → Word) : Nat → Word := fun i =>
  if c.secoff ≤ i ∧ i < c.secoff + c.secremain then pBuffer (i - c.secoff) else buf i

/-- One round of the loop: read the page; if it is not blank, erase, merge and
program the whole page, otherwise program the words alone. -/
def writeRound (hal : HalAnswers) (d : FlashDev) (c : Cursor) (pBuffer : Nat → Word) : Round :=
  let buf := stmflashRead_AllWord d.mem c.page
  if needErase buf then
    let d := flashEraseSector d (eraseNumber c.writeAddr)
    let buf := mergeWords c pBuffer buf
    let r := stmflashWriteNoCheck hal d c.page buf pageWords
    ⟨r.1, r.2, c.page, buf⟩
  else
    let r := stmflashWriteNoCheck hal d c.writeAddr pBuffer c.secremain
    ⟨r.1, r.2, c.page, buf⟩

section Loop
-- a round stays folded in the equation of the loop
attribute [local irreducible] writeRound

/-- The `while(1)` of `STMFLASH_Write`, left by the last round or by an error. -/
def writeLoop (hal : HalAnswers) (d : FlashDev) (c : Cursor) (pBuffer : Nat → Word) : Round :=
  let r := writeRound hal d c pBuffer
  if r.status = .error then { r with dev := (halFlashLock hal r.dev).2 }
  else if c.numToWrite = c.secremain then r
  else writeLoop hal r.dev c.next fun i => pBuffer (i + c.secremain)
termination_by c.numToWrite
decreasing_by
  have hle := c.remain_le
  have hp := c.progress
  simp only [Cursor.next]
  omega

theorem writeLoop_eq (hal : HalAnswers) (d : FlashDev) (c : Cursor) (pBuffer : Nat → Word) :
    writeLoop hal d c pBuffer =
      let r := writeRound hal d c pBuffer
      if r.status = .error then { r with dev := (halFlashLock hal r.dev).2 }
      else if c.numToWrite = c.secremain then r
      else writeLoop hal r.dev c.next fun i => pBuffer (i + c.secremain) := by
  rw [writeLoop]

end Loop

/-- The label `WF`: program the buffer again and report success. -/
def writeFailed (hal : HalAnswers) (r : Round) : HalStatus × FlashDev :=
  let d := (halFlashUnlock hal r.dev).2
  let d := (stmflashWriteNoCheck hal d r.page r.buf pageWords).2
  (.ok, (halFlashLock hal d).2)

/-- `STMFLASH_Write`: the status returned and the device left. -/
def stmflashWrite (hal : HalAnswers) (d : FlashDev) (writeAddr : Nat) (pBuffer : Nat → Word)
    (numToWrite : Nat) : HalStatus × FlashDev :=
  if writeAddr < flashBase ∨ writeAddr ≥ flashBase + 1024 * stm32FlashSize then (.error, d)
  else
    let r := writeLoop hal (halFlashUnlock hal d).2 (Cursor.start writeAddr numToWrite) pBuffer
    if r.status = .error then writeFailed hal r
    else
      let l := halFlashLock hal r.dev
      if l.1 = .error then writeFailed hal { r with dev := l.2 } else (.ok, l.2)

/-! ## Structures as bytes -/

/-- `memCTOI`: four bytes copied into a word. -/
def memCTOI (data : Nat → Byte) : Word := wordOf data

/-- `STMFLASH_WriteStruct`: the whole words of the first `numToWrite` bytes. -/
def stmflashWriteStruct (hal : HalAnswers) (d : FlashDev) (writeAddr : Nat)
    (pBuffer : Nat → Byte) (numToWrite : Nat) : HalStatus × FlashDev :=
  stmflashWrite hal d writeAddr (fun i => memCTOI fun k => pBuffer (flashAline * i + k))
    (numToWrite / flashAline)

/-- `STMFLASH_ReadStruct`: byte `j` of the caller's buffer, for `j < numToRead`.
The local buffer starts as zeros and gets the whole words of the range. -/
def stmflashReadStruct (m : Mem) (readAddr numToRead : Nat) (j : Nat) : Byte :=
  let buffer := fun i =>
    if i < numToRead / flashAline then stmflashRead_AllWord m readAddr i else 0#32
  byteOf (buffer (j / flashAline)) (j % flashAline)

end ControlRTT.Applications.Flash

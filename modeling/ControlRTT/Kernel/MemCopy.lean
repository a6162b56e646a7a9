import Mathlib.Data.BitVec

/-! # Block routines (kservice.c)

`rt_memset` and `rt_memcpy` go by words where the addresses allow it, with and without
`RT_USING_TINY_SIZE`, and `rt_memmove` by bytes, in the direction in which it does not overwrite
what it has still to read. Addresses are numbers, as no object goes past the last address; a
`rt_ubase_t` has 32 bits. Each loop is described by the memory that it leaves, and the memories of
loops that follow each other are put together (`copied_append`, `copied_prepend`). -/
namespace ControlRTT.Kernel.MemCopy

abbrev Mem := Nat → BitVec 8

def store (m : Mem) (a : Nat) (v : BitVec 8) : Mem := fun b => if b = a then v else m b

def load32 (m : Mem) (a : Nat) : BitVec 32 := m (a + 3) ++ m (a + 2) ++ m (a + 1) ++ m a

def store32 (m : Mem) (a : Nat) (v : BitVec 32) : Mem := fun b =>
  if a ≤ b ∧ b < a + 4 then v.extractLsb' (8 * (b - a)) 8 else m b

/-! ## By bytes -/

/-- `while (count--) *xs++ = c;` -/
def setBytes (m : Mem) (xs : Nat) (c : BitVec 8) (count : BitVec 32) : Mem :=
  if count = 0 then m else setBytes (store m xs c) (xs + 1) c (count - 1)
termination_by count.toNat
decreasing_by bv_omega

/-- `while (count--) *tmp++ = *s++;` -/
def copyUp (m : Mem) (tmp s : Nat) (count : BitVec 32) : Mem :=
  if count = 0 then m else copyUp (store m tmp (m s)) (tmp + 1) (s + 1) (count - 1)
termination_by count.toNat
decreasing_by bv_omega

/-- `while (n--) *(--tmp) = *(--s);` -/
def copyDown (m : Mem) (tmp s : Nat) (n : BitVec 32) : Mem :=
  if n = 0 then m else copyDown (store m (tmp - 1) (m (s - 1))) (tmp - 1) (s - 1) (n - 1)
termination_by n.toNat
decreasing_by bv_omega

/-- `for (len = count; len > 0; len --) tmp[len - 1] = s[len - 1];` -/
def copyFromEnd (m : Mem) (tmp s : Nat) (len : BitVec 32) : Mem :=
  if len = 0 then m
  else copyFromEnd (store m (tmp + (len - 1).toNat) (m (s + (len - 1).toNat))) tmp s (len - 1)
termination_by len.toNat
decreasing_by bv_omega

/-- `rt_memset` with `RT_USING_TINY_SIZE`. -/
def rtMemsetTiny (m : Mem) (s : Nat) (c : BitVec 32) (count : BitVec 32) : Mem :=
  setBytes m s (c.setWidth 8) count

/-- `rt_memcpy` with `RT_USING_TINY_SIZE`. -/
def rtMemcpyTiny (m : Mem) (dst src : Nat) (count : BitVec 32) : Mem :=
  if dst ≤ src ∨ dst > src + count.toNat then copyUp m dst src count
  else copyFromEnd m dst src count

def rtMemmove (m : Mem) (dest src : Nat) (n : BitVec 32) : Mem :=
  if src < dest ∧ dest < src + n.toNat then copyDown m (dest + n.toNat) (src + n.toNat) n
  else copyUp m dest src n

/-! ## By words -/

/-- The loops of `rt_memset` over words: the memory, `aligned_addr` and `count`. -/
def setBlocks (m : Mem) (addr : Nat) (buffer count : BitVec 32) : Mem × Nat × BitVec 32 :=
  if 16 ≤ count then
    let m := store32 m addr buffer
    let m := store32 m (addr + 4) buffer
    let m := store32 m (addr + 8) buffer
    let m := store32 m (addr + 12) buffer
    setBlocks m (addr + 16) buffer (count - 16)
  else (m, addr, count)
termination_by count.toNat
decreasing_by bv_omega

def setWords (m : Mem) (addr : Nat) (buffer count : BitVec 32) : Mem × Nat × BitVec 32 :=
  if 4 ≤ count then setWords (store32 m addr buffer) (addr + 4) buffer (count - 4)
  else (m, addr, count)
termination_by count.toNat
decreasing_by bv_omega

def rtMemset (m : Mem) (s : Nat) (c : BitVec 32) (count : BitVec 32) : Mem :=
  let d := c &&& 0xff
  if ¬ count < 4 ∧ s &&& 3 = 0 then
    let buffer := d <<< 8 ||| d
    let buffer := buffer ||| buffer <<< 16
    let (m, addr, count) := setBlocks m s buffer count
    let (m, addr, count) := setWords m addr buffer count
    setBytes m addr (d.setWidth 8) count
  else setBytes m s (d.setWidth 8) count

/-- The loops of `rt_memcpy` over words: the memory, `aligned_dst`, `aligned_src` and `len`. This
one is an `int`, but is compared with sizes, as an unsigned number. -/
def copyBlocks (m : Mem) (dst src : Nat) (len : BitVec 32) : Mem × Nat × Nat × BitVec 32 :=
  if 16 ≤ len then
    let m := store32 m dst (load32 m src)
    let m := store32 m (dst + 4) (load32 m (src + 4))
    let m := store32 m (dst + 8) (load32 m (src + 8))
    let m := store32 m (dst + 12) (load32 m (src + 12))
    copyBlocks m (dst + 16) (src + 16) (len - 16)
  else (m, dst, src, len)
termination_by len.toNat
decreasing_by bv_omega

def copyWords (m : Mem) (dst src : Nat) (len : BitVec 32) : Mem × Nat × Nat × BitVec 32 :=
  if 4 ≤ len then copyWords (store32 m dst (load32 m src)) (dst + 4) (src + 4) (len - 4)
  else (m, dst, src, len)
termination_by len.toNat
decreasing_by bv_omega

def rtMemcpy (m : Mem) (dst src : Nat) (count : BitVec 32) : Mem :=
  if ¬ count < 16 ∧ src &&& 3 ||| dst &&& 3 = 0 then
    let (m, dst, src, len) := copyBlocks m dst src count
    let (m, dst, src, len) := copyWords m dst src len
    copyUp m dst src len
  else copyUp m dst src count

/-! ## What is asked of them -/

/-- The `n` bytes from `dst` on are those from `src` on, and no other byte has changed. -/
def copied (m : Mem) (dst src n : Nat) : Mem := fun b =>
  if dst ≤ b ∧ b < dst + n then m (src + (b - dst)) else m b

def filled (m : Mem) (s : Nat) (c : BitVec 8) (n : Nat) : Mem := fun b =>
  if s ≤ b ∧ b < s + n then c else m b

/-- The two blocks have no byte in common. -/
def Apart (dst src n : Nat) : Prop := dst + n ≤ src ∨ src + n ≤ dst

section
variable {m : Mem} {dst src n k s a : Nat} {c : BitVec 8} {count : BitVec 32}

@[simp] theorem copied_zero (m : Mem) (dst src : Nat) : copied m dst src 0 = m := by
  funext b
  exact if_neg fun h => by omega

@[simp] theorem filled_zero (m : Mem) (s : Nat) (c : BitVec 8) : filled m s c 0 = m := by
  funext b
  exact if_neg fun h => by omega

/-- What comes first is not read by what comes next. -/
theorem copied_append (h : dst ≤ src ∨ src + k + n ≤ dst) :
    copied (copied m dst src k) (dst + k) (src + k) n = copied m dst src (k + n) := by
  funext b
  unfold copied
  grind

/-- The end comes first. -/
theorem copied_prepend (h : src ≤ dst ∨ dst + k + n ≤ src) :
    copied (copied m (dst + k) (src + k) n) dst src k = copied m dst src (k + n) := by
  funext b
  unfold copied
  grind

theorem filled_append :
    filled (filled m s c k) (s + k) c n = filled m s c (k + n) := by
  funext b
  unfold filled
  grind

theorem store_eq_copied (m : Mem) (dst src : Nat) : store m dst (m src) = copied m dst src 1 := by
  funext b
  unfold store copied
  grind

theorem store_eq_filled (m : Mem) (s : Nat) (c : BitVec 8) : store m s c = filled m s c 1 := by
  funext b
  unfold store filled
  grind

/-! ## Words -/

theorem byte_load32 (m : Mem) (a : Nat) {i : Nat} (hi : i < 4) :
    (load32 m a).extractLsb' (8 * i) 8 = m (a + i) := by
  have hbytes : ∀ x y z w : BitVec 8, (x ++ y ++ z ++ w).extractLsb' 0 8 = w ∧
      (x ++ y ++ z ++ w).extractLsb' 8 8 = z ∧ (x ++ y ++ z ++ w).extractLsb' 16 8 = y ∧
      (x ++ y ++ z ++ w).extractLsb' 24 8 = x := by
    intro x y z w
    refine ⟨?_, ?_, ?_, ?_⟩ <;> refine BitVec.eq_of_getLsbD_eq fun j hj => ?_ <;>
      simp only [BitVec.getLsbD_append, BitVec.getLsbD_extractLsb'] <;> grind
  obtain ⟨h0, h1, h2, h3⟩ := hbytes (m (a + 3)) (m (a + 2)) (m (a + 1)) (m a)
  match i, hi with
  | 0, _ => exact h0
  | 1, _ => exact h1
  | 2, _ => exact h2
  | 3, _ => exact h3

theorem store32_load32 (m : Mem) (dst src : Nat) :
    store32 m dst (load32 m src) = copied m dst src 4 := by
  funext b
  unfold store32 copied
  split
  · rename_i hin
    exact byte_load32 m src (by omega)
  · rfl

/-- The word that holds the byte four times. -/
def replicated (c : BitVec 32) : BitVec 32 :=
  (c &&& 0xff) <<< 8 ||| c &&& 0xff ||| ((c &&& 0xff) <<< 8 ||| c &&& 0xff) <<< 16

theorem byte_replicated (c : BitVec 32) {i : Nat} (hi : i < 4) :
    (replicated c).extractLsb' (8 * i) 8 = c.setWidth 8 := by
  refine BitVec.eq_of_getLsbD_eq fun j hj => ?_
  have hff : ∀ k, (0xff : BitVec 32).getLsbD k = decide (k < 8) := by
    intro k
    have hones : (0xff : BitVec 32) = (BitVec.allOnes 8).setWidth 32 := rfl
    rw [hones, BitVec.getLsbD_setWidth, BitVec.getLsbD_allOnes]
    grind
  simp only [replicated, BitVec.getLsbD_extractLsb', BitVec.getLsbD_or, BitVec.getLsbD_and,
    BitVec.getLsbD_shiftLeft, BitVec.getLsbD_setWidth, hff]
  match i, hi with
  | 0, _ => grind
  | 1, _ => grind
  | 2, _ => grind
  | 3, _ => grind

theorem store32_replicated (m : Mem) (a : Nat) (c : BitVec 32) :
    store32 m a (replicated c) = filled m a (c.setWidth 8) 4 := by
  funext b
  unfold store32 filled
  split
  · rename_i hin
    exact byte_replicated c (by omega)
  · rfl

/-! ## Loops -/

theorem toNat_pred (h : count ≠ 0) : count.toNat = (count - 1).toNat + 1 := by
  bv_omega

theorem setBytes_eq (m : Mem) (xs : Nat) (c : BitVec 8) (count : BitVec 32) :
    setBytes m xs c count = filled m xs c count.toNat := by
  fun_induction setBytes m xs c count with
  | case1 m xs =>
    exact (filled_zero m xs c).symm
  | case2 m xs count hne ih =>
    rw [ih, store_eq_filled, filled_append, toNat_pred hne, Nat.add_comm]

theorem copyUp_eq (m : Mem) (tmp s : Nat) (count : BitVec 32)
    (h : tmp ≤ s ∨ s + count.toNat ≤ tmp) :
    copyUp m tmp s count = copied m tmp s count.toNat := by
  fun_induction copyUp m tmp s count with
  | case1 m tmp s =>
    exact (copied_zero m tmp s).symm
  | case2 m tmp s count hne ih =>
    have hcount := toNat_pred hne
    rw [ih (by omega), store_eq_copied, copied_append (by omega), hcount, Nat.add_comm]

theorem copyDown_eq (m : Mem) (tmp s : Nat) (n : BitVec 32)
    (h : s ≤ tmp ∨ tmp + n.toNat ≤ s) :
    copyDown m (tmp + n.toNat) (s + n.toNat) n = copied m tmp s n.toNat := by
  generalize htmp : tmp + n.toNat = endTmp
  generalize hs : s + n.toNat = endS
  fun_induction copyDown m endTmp endS n generalizing tmp s with
  | case1 m endTmp endS =>
    exact (copied_zero m tmp s).symm
  | case2 m endTmp endS n hne ih =>
    have hn := toNat_pred hne
    obtain rfl : endTmp = tmp + (n - 1).toNat + 1 := by omega
    obtain rfl : endS = s + (n - 1).toNat + 1 := by omega
    rw [ih tmp s (by omega) rfl rfl, Nat.add_sub_cancel, Nat.add_sub_cancel, store_eq_copied,
      copied_prepend (by omega), hn]

theorem copyFromEnd_eq (m : Mem) (tmp s : Nat) (len : BitVec 32)
    (h : s ≤ tmp ∨ tmp + len.toNat ≤ s) :
    copyFromEnd m tmp s len = copied m tmp s len.toNat := by
  fun_induction copyFromEnd m tmp s len with
  | case1 m =>
    exact (copied_zero m tmp s).symm
  | case2 m len hne ih =>
    have hlen := toNat_pred hne
    rw [ih (by omega), store_eq_copied, copied_prepend (by omega), hlen]

/-- The memory after what is left to set. -/
def setLeft (c : BitVec 32) (r : Mem × Nat × BitVec 32) : Mem :=
  filled r.1 r.2.1 (c.setWidth 8) r.2.2.toNat

/-- The memory after what is left to copy. -/
def copyLeft (r : Mem × Nat × Nat × BitVec 32) : Mem := copied r.1 r.2.1 r.2.2.1 r.2.2.2.toNat

/-- What is left to copy does not overwrite what it has still to read. -/
def CanCopy (r : Mem × Nat × Nat × BitVec 32) : Prop :=
  r.2.1 ≤ r.2.2.1 ∨ r.2.2.1 + r.2.2.2.toNat ≤ r.2.1

/-- A loop over words changes nothing in what comes out at the end. -/
theorem setBlocks_left (m : Mem) (addr : Nat) (c count : BitVec 32) :
    setLeft c (setBlocks m addr (replicated c) count) = setLeft c (m, addr, count) := by
  fun_induction setBlocks m addr (replicated c) count with
  | case1 m addr count hle m1 m2 m3 m4 ih =>
    have hcount : count.toNat = 4 + (4 + (4 + (4 + (count - 16).toNat))) := by bv_omega
    rw [ih]
    simp only [m4, m3, m2, m1, store32_replicated, setLeft]
    rw [hcount, ← filled_append, ← filled_append, ← filled_append, ← filled_append]
  | case2 m addr count hle => rfl

theorem setWords_left (m : Mem) (addr : Nat) (c count : BitVec 32) :
    setLeft c (setWords m addr (replicated c) count) = setLeft c (m, addr, count) := by
  fun_induction setWords m addr (replicated c) count with
  | case1 m addr count hle ih =>
    have hcount : count.toNat = 4 + (count - 4).toNat := by bv_omega
    rw [ih, store32_replicated, setLeft, setLeft, hcount, ← filled_append]
  | case2 m addr count hle => rfl

theorem copyBlocks_left (m : Mem) (dst src : Nat) (len : BitVec 32)
    (h : CanCopy (m, dst, src, len)) : CanCopy (copyBlocks m dst src len) ∧
      copyLeft (copyBlocks m dst src len) = copyLeft (m, dst, src, len) := by
  unfold CanCopy at h
  fun_induction copyBlocks m dst src len with
  | case1 m dst src len hle m1 m2 m3 m4 ih =>
    have hlen : len.toNat = 4 + (4 + (4 + (4 + (len - 16).toNat))) := by bv_omega
    obtain ⟨hcan, hleft⟩ := ih (by dsimp only at h ⊢; omega)
    refine ⟨hcan, hleft.trans ?_⟩
    dsimp only at h
    simp only [m4, m3, m2, m1, store32_load32, copyLeft]
    rw [hlen, ← copied_append (by omega), ← copied_append (by omega), ← copied_append (by omega),
      ← copied_append (by omega)]
  | case2 m dst src len hle => exact ⟨h, rfl⟩

theorem copyWords_left (m : Mem) (dst src : Nat) (len : BitVec 32)
    (h : CanCopy (m, dst, src, len)) : CanCopy (copyWords m dst src len) ∧
      copyLeft (copyWords m dst src len) = copyLeft (m, dst, src, len) := by
  unfold CanCopy at h
  fun_induction copyWords m dst src len with
  | case1 m dst src len hle ih =>
    have hlen : len.toNat = 4 + (len - 4).toNat := by bv_omega
    obtain ⟨hcan, hleft⟩ := ih (by dsimp only at h ⊢; omega)
    refine ⟨hcan, hleft.trans ?_⟩
    dsimp only at h
    simp only [store32_load32, copyLeft]
    rw [hlen, ← copied_append (by omega)]
  | case2 m dst src len hle => exact ⟨h, rfl⟩

/-! ## The routines -/

theorem rtMemset_eq (m : Mem) (s : Nat) (c count : BitVec 32) :
    rtMemset m s c count = filled m s (c.setWidth 8) count.toNat := by
  have hd : (c &&& 0xff).setWidth 8 = c.setWidth 8 := by
    rw [BitVec.setWidth_and]
    exact BitVec.and_allOnes
  unfold rtMemset
  split
  · have hblocks := setBlocks_left m s c count
    unfold replicated at hblocks
    dsimp only
    generalize setBlocks m s _ count = blocks at hblocks ⊢
    obtain ⟨m', s', count'⟩ := blocks
    have hwords := setWords_left m' s' c count'
    unfold replicated at hwords
    dsimp only
    generalize setWords m' s' _ count' = words at hwords ⊢
    obtain ⟨m'', s'', count''⟩ := words
    dsimp only
    rw [hd, setBytes_eq]
    exact hwords.trans hblocks
  · dsimp only
    rw [hd, setBytes_eq]

theorem rtMemcpy_eq (m : Mem) (dst src : Nat) (count : BitVec 32) (h : Apart dst src count.toNat) :
    rtMemcpy m dst src count = copied m dst src count.toNat := by
  have hcan : dst ≤ src ∨ src + count.toNat ≤ dst := h.imp_left Nat.le_of_add_right_le
  unfold rtMemcpy
  split
  · obtain ⟨hblocks, hblocksLeft⟩ := copyBlocks_left m dst src count hcan
    generalize copyBlocks m dst src count = blocks at hblocks hblocksLeft ⊢
    obtain ⟨m', dst', src', len'⟩ := blocks
    obtain ⟨hwords, hwordsLeft⟩ := copyWords_left m' dst' src' len' hblocks
    dsimp only
    generalize copyWords m' dst' src' len' = words at hwords hwordsLeft ⊢
    obtain ⟨m'', dst'', src'', len''⟩ := words
    exact (copyUp_eq m'' dst'' src'' len'' hwords).trans (hwordsLeft.trans hblocksLeft)
  · exact copyUp_eq m dst src count hcan

theorem rtMemcpyTiny_eq (m : Mem) (dst src : Nat) (count : BitVec 32)
    (h : Apart dst src count.toNat) :
    rtMemcpyTiny m dst src count = copied m dst src count.toNat := by
  unfold rtMemcpyTiny
  split
  · exact copyUp_eq m dst src count (h.imp_left Nat.le_of_add_right_le)
  · exact copyFromEnd_eq m dst src count (by omega)

theorem rtMemmove_eq (m : Mem) (dest src : Nat) (n : BitVec 32) :
    rtMemmove m dest src n = copied m dest src n.toNat := by
  unfold rtMemmove
  split
  · exact copyDown_eq m dest src n (by omega)
  · exact copyUp_eq m dest src n (by omega)

theorem rtMemsetTiny_eq (m : Mem) (s : Nat) (c count : BitVec 32) :
    rtMemsetTiny m s c count = filled m s (c.setWidth 8) count.toNat :=
  setBytes_eq m s _ count

end

/-- `rt_memmove` leaves the bytes of the source in the destination, whatever of them overlaps;
`rt_memcpy` and `rt_memset` do what they do byte by byte; and none changes another byte. -/
theorem block_routines (m : Mem) (dst src : Nat) (c n : BitVec 32) :
    rtMemmove m dst src n = copied m dst src n.toNat ∧
      (Apart dst src n.toNat → rtMemcpy m dst src n = rtMemcpyTiny m dst src n ∧
        rtMemcpy m dst src n = copied m dst src n.toNat) ∧
      rtMemset m dst c n = rtMemsetTiny m dst c n ∧
      rtMemset m dst c n = filled m dst (c.setWidth 8) n.toNat := by
  refine ⟨rtMemmove_eq m dst src n, fun hapart => ?_, ?_, rtMemset_eq m dst c n⟩
  · have hcopied := rtMemcpy_eq m dst src n hapart
    exact ⟨hcopied.trans (rtMemcpyTiny_eq m dst src n hapart).symm, hcopied⟩
  · rw [rtMemset_eq, rtMemsetTiny_eq]

/-- A memory in which every byte is the low part of its address. -/
theorem block_routines_apart :
    rtMemcpy (BitVec.ofNat 8) 0 32 21 = rtMemcpyTiny (BitVec.ofNat 8) 0 32 21 :=
  ((block_routines (BitVec.ofNat 8) 0 32 0 21).2.1 (.inl (by decide))).1

end ControlRTT.Kernel.MemCopy

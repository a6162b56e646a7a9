import ControlRTT.Kernel.SmallMemSizes
import ControlRTT.Lib.ByteMem

/-! # Blocks at aligned addresses (kservice.c)

`rt_malloc_align` gets a block that is longer by the alignment, and keeps its address in the word
before the one it returns (`malloc_align`). -/
namespace ControlRTT.Kernel.MallocAlign
open ControlRTT.Lib.ByteMem ControlRTT.Lib.Tiling ControlRTT.Kernel.RtDef
open ControlRTT.Kernel.SmallMem

/-- To the next multiple of 4. -/
def alignFour (x : BitVec 32) : BitVec 32 := (x + 3) &&& ~~~3

/-- What `rt_malloc_align` asks of `rt_malloc`. -/
def alignSize (size align : BitVec 32) : BitVec 32 := alignFour size + alignFour align

/-- The address within the block. -/
def alignPtr (ptr align : BitVec 32) : BitVec 32 :=
  if ptr &&& (align - 1) = 0 then ptr + align else (ptr + (align - 1)) &&& ~~~(align - 1)

/-- `rt_malloc` is a parameter; it returns an address, if not null. -/
def rtMallocAlign (malloc : BitVec 32 → Option (BitVec 32)) (mem : Bytes)
    (size align : BitVec 32) : Option (BitVec 32) × Bytes :=
  match malloc (alignSize size align) with
  | none => (none, mem)
  | some ptr =>
    let alignPtr := alignPtr ptr (alignFour align)
    (some alignPtr, store32 mem (alignPtr - 4) ptr)

/-- What `rt_free_align` gives to `rt_free`. -/
def rtFreeAlign (mem : Bytes) (ptr : BitVec 32) : BitVec 32 := load32 mem (ptr - 4)

/-- Blocks start at multiples of `RT_ALIGN_SIZE` and end before the last address. -/
def Allocates (malloc : BitVec 32 → Option (BitVec 32)) : Prop :=
  ∀ n p, n.toNat + 3 < 2 ^ 32 → malloc n = some p → 4 ∣ p.toNat ∧ p.toNat + n.toNat < 2 ^ 32

/-- An address within the `n` bytes from `p` on. -/
def Within (p : BitVec 32) (n : Nat) (a : BitVec 32) : Prop :=
  p.toNat ≤ a.toNat ∧ a.toNat < p.toNat + n

section
variable {x m p align size : BitVec 32} {k : Nat}

theorem and_mask (hm : m.toNat = 2 ^ k - 1) : (x &&& m).toNat = x.toNat % 2 ^ k := by
  rw [BitVec.toNat_and, hm, Nat.and_two_pow_sub_one_eq_mod]

theorem and_not_mask (hm : m.toNat = 2 ^ k - 1) :
    (x &&& ~~~m).toNat = x.toNat / 2 ^ k * 2 ^ k := by
  have hbit : ∀ i, m.getLsbD i = decide (i < k) := fun i => by
    unfold BitVec.getLsbD
    rw [hm, Nat.testBit_two_pow_sub_one]
  have heq : x &&& ~~~m = x >>> k <<< k := by
    refine BitVec.eq_of_getLsbD_eq fun i hi => ?_
    simp only [BitVec.getLsbD_and, BitVec.getLsbD_not, hbit, BitVec.getLsbD_shiftLeft,
      BitVec.getLsbD_ushiftRight, hi, decide_true, Bool.true_and]
    by_cases hik : i < k
    · simp [hik]
    · rw [decide_eq_false hik, show k + (i - k) = i by omega]
      simp
  have hle : x.toNat / 2 ^ k * 2 ^ k < 2 ^ 32 :=
    Nat.lt_of_le_of_lt (Nat.div_mul_le_self _ _) x.isLt
  rw [heq, BitVec.toNat_shiftLeft, BitVec.toNat_ushiftRight, Nat.shiftRight_eq_div_pow,
    Nat.shiftLeft_eq, Nat.mod_eq_of_lt hle]

theorem alignFour_toNat (h : x.toNat + 3 < 2 ^ 32) :
    (alignFour x).toNat = (x.toNat + 3) / 4 * 4 := by
  unfold alignFour
  rw [and_not_mask (k := 2) rfl, BitVec.toNat_add]
  change (x.toNat + 3) % 2 ^ 32 / 4 * 4 = _
  rw [Nat.mod_eq_of_lt h]

/-- A power of two is its own multiple of four, or 1 or 2. -/
theorem alignFour_pow (h : align.toNat = 2 ^ k) (hlt : align.toNat + 3 < 2 ^ 32) :
    ∃ j, (alignFour align).toNat = 2 ^ j ∧ 4 ∣ 2 ^ j ∧ 2 ^ k ∣ 2 ^ j := by
  rw [alignFour_toNat hlt, h]
  by_cases hsmall : k < 2
  · refine ⟨2, ?_, dvd_refl _, Nat.pow_dvd_pow 2 (by omega)⟩
    obtain rfl | rfl : k = 0 ∨ k = 1 := by omega
    all_goals rfl
  · have hdvd : 4 ∣ 2 ^ k := Nat.pow_dvd_pow 2 (show 2 ≤ k by omega)
    exact ⟨k, by omega, hdvd, dvd_refl _⟩

/-- The address is a multiple of the alignment, four bytes or more behind the start of the block and
no more than the alignment. -/
theorem alignPtr_spec (halign : align.toNat = 2 ^ k) (hfour : 4 ∣ align.toNat) (hp : 4 ∣ p.toNat)
    (hlt : p.toNat + align.toNat < 2 ^ 32) :
    align.toNat ∣ (alignPtr p align).toNat ∧ p.toNat + 4 ≤ (alignPtr p align).toNat ∧
      (alignPtr p align).toNat ≤ p.toNat + align.toNat := by
  have hpos : 0 < align.toNat := halign ▸ Nat.two_pow_pos k
  have hmask : (align - 1).toNat = 2 ^ k - 1 := by
    have hone : (1 : BitVec 32) ≤ align := BitVec.le_def.mpr hpos
    rw [BitVec.toNat_sub_of_le hone, halign]
    rfl
  have hresidue : p &&& (align - 1) = 0 ↔ align.toNat ∣ p.toNat := by
    rw [← BitVec.toNat_inj, and_mask hmask, halign]
    exact (Nat.dvd_iff_mod_eq_zero).symm
  unfold alignPtr
  by_cases hdvd : align.toNat ∣ p.toNat
  · have hle : 4 ≤ align.toNat := Nat.le_of_dvd hpos hfour
    rw [if_pos (hresidue.mpr hdvd), BitVec.toNat_add, Nat.mod_eq_of_lt hlt]
    exact ⟨Nat.dvd_add hdvd (dvd_refl _), by omega, le_rfl⟩
  · rw [if_neg (mt hresidue.mp hdvd), and_not_mask hmask, BitVec.toNat_add, hmask, ← halign,
      Nat.mod_eq_of_lt (by omega)]
    generalize align.toNat = a at *
    have hdiv := Nat.div_add_mod (p.toNat + (a - 1)) a
    have hmod := Nat.mod_lt (p.toNat + (a - 1)) hpos
    have hresult : a ∣ (p.toNat + (a - 1)) / a * a := Nat.dvd_mul_left a _
    rw [Nat.mul_comm] at hdiv
    generalize (p.toNat + (a - 1)) / a * a = r at hdiv hresult ⊢
    have hne : r ≠ p.toNat := fun heq => hdvd (heq ▸ hresult)
    have hr : 4 ∣ r := hfour.trans hresult
    exact ⟨hresult, by omega, by omega⟩

/-- The word with the address of the block is not overwritten by its owner. -/
theorem rtFreeAlign_kept {mem mem' : Bytes} {r : BitVec 32} (hfour : 4 ≤ r.toNat)
    (hend : r.toNat + size.toNat ≤ 2 ^ 32)
    (h : ∀ a, ¬Within r size.toNat a → mem' a = store32 mem (r - 4) p a) :
    rtFreeAlign mem' r = p := by
  unfold rtFreeAlign
  rw [load32_congr fun b hb => h b fun hin => ?_, load32_store32]
  obtain ⟨hge, hlt⟩ := hin
  have hsub : (r - 4).toNat = r.toNat - 4 := BitVec.toNat_sub_of_le (BitVec.le_def.mpr hfour)
  rw [BitVec.toNat_sub, hsub] at hb
  have hblt := b.isLt
  omega

end

/-- For an alignment that is a power of two, and a size that the sum has room for: the result is
aligned, the word before it and the range behind it are in the block, and however its owner fills
the range the block is freed. -/
theorem malloc_align {malloc : BitVec 32 → Option (BitVec 32)} (hmalloc : Allocates malloc)
    {mem mem' : Bytes} {size align result : BitVec 32} {k : Nat} (halign : align.toNat = 2 ^ k)
    (hsum : (size.toNat + 3) / 4 * 4 + (align.toNat + 3) / 4 * 4 < 2 ^ 32)
    (h : rtMallocAlign malloc mem size align = (some result, mem')) :
    align.toNat ∣ result.toNat ∧
      ∃ ptr, malloc (alignSize size align) = some ptr ∧
        ptr.toNat ≤ result.toNat - 4 ∧ result.toNat - 4 + 4 = result.toNat ∧
        result.toNat + size.toNat ≤ ptr.toNat + (alignSize size align).toNat ∧
        ∀ mem'', (∀ a, ¬Within result size.toNat a → mem'' a = mem' a) →
          rtFreeAlign mem'' result = ptr := by
  have hsize : (alignSize size align).toNat =
      (size.toNat + 3) / 4 * 4 + (align.toNat + 3) / 4 * 4 := by
    unfold alignSize
    rw [BitVec.toNat_add, alignFour_toNat (by omega), alignFour_toNat (by omega),
      Nat.mod_eq_of_lt hsum]
  have hup : (alignFour align).toNat = (align.toNat + 3) / 4 * 4 := alignFour_toNat (by omega)
  obtain ⟨j, hj, hfour, hdvd⟩ := alignFour_pow halign (by omega)
  unfold rtMallocAlign at h
  cases hcall : malloc (alignSize size align) with
  | none =>
    rw [hcall] at h
    cases (Prod.mk.inj h).1
  | some ptr =>
    rw [hcall] at h
    obtain ⟨hresult, rfl⟩ := Prod.mk.inj h
    obtain rfl := Option.some.inj hresult
    obtain ⟨hptr, hend⟩ := hmalloc _ _ (by omega) hcall
    obtain ⟨haligned, hge, hle⟩ := alignPtr_spec hj (hj ▸ hfour) hptr (by omega)
    refine ⟨?_, ptr, rfl, by omega, by omega, by omega, fun mem'' hmem => ?_⟩
    · rw [halign]
      exact hdvd.trans (hj ▸ haligned)
    · exact rtFreeAlign_kept (by omega) (by omega) hmem

/-- A block at an odd multiple of four. -/
theorem malloc_align_eight :
    (8#32).toNat ∣ (0x20000008#32).toNat ∧
      ∃ ptr, (some 0x20000004#32) = some ptr ∧ ptr.toNat ≤ (0x20000008#32).toNat - 4 ∧
        (0x20000008#32).toNat - 4 + 4 = (0x20000008#32).toNat ∧
        (0x20000008#32).toNat + (5#32).toNat ≤ ptr.toNat + (alignSize 5 8).toNat ∧
        ∀ mem'', (∀ a, ¬Within 0x20000008 (5#32).toNat a →
            mem'' a = store32 (fun _ => 0) (0x20000008 - 4) 0x20000004 a) →
          rtFreeAlign mem'' 0x20000008 = ptr :=
  @malloc_align (fun n => if n.toNat < 100 then some 0x20000004 else none)
    (fun n p _ h => by
      obtain ⟨hlt, heq⟩ := Option.ite_none_right_eq_some.mp h
      obtain rfl := Option.some.inj heq
      exact ⟨by decide, Nat.lt_trans (Nat.add_lt_add_left hlt _) (by decide)⟩)
    (fun _ => 0) _ 5 8 _ 3 rfl (by decide) rfl

/-- `rt_malloc` of the small memory allocator. -/
def heapMalloc (s : Heap) (n : BitVec 32) : Option (BitVec 32) :=
  (rtMalloc s n.toNat).bind fun r => if r.2 = 0 then none else some (BitVec.ofNat 32 r.2)

/-- The blocks of a heap that is in order are such blocks. -/
theorem allocates_heapMalloc {s : Heap} {bs : List Block} (h : Blocks s bs) :
    Allocates (heapMalloc s) := by
  intro n p hn hcall
  obtain ⟨⟨s', q⟩, hmalloc, hcall⟩ := Option.bind_eq_some_iff.mp hcall
  obtain ⟨hq, hcall⟩ := Option.ite_none_left_eq_some.mp hcall
  obtain rfl := Option.some.inj hcall
  rcases h.malloc hmalloc with ⟨hzero, -⟩ | ⟨pre, len, post, hblocks, hplace, rfl, hlen, -⟩
  · exact absurd hzero hq
  · have hdvd := dvd_extent fun b hb => hblocks.chain.words b (List.mem_append_left _ hb)
    have hheap := hblocks.chain.aligned
    have hfits := hblocks.chain.fits
    have hreach := hblocks.chain.reaches
    rw [extent_append, extent_cons] at hreach
    rw [hplace.1] at hheap hfits
    have hsize := (rtAlign_four hn).1
    dsimp only at hreach hlen
    simp only [sizeofStructMem] at hfits ⊢
    rw [BitVec.toNat_ofNat, Nat.mod_eq_of_lt (by omega)]
    omega

end ControlRTT.Kernel.MallocAlign

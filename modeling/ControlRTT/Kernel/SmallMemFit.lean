import ControlRTT.Kernel.SmallMemLowest
import ControlRTT.Kernel.SmallMemSearch

/-! # What `rt_malloc` finds (mem.c)

The search stops before the last offset at which the request could fit: a free block that the
request fills exactly, and that ends at `heap_end`, is not taken (`complete_throughout_iff`). -/
namespace ControlRTT.Kernel.SmallMem
open ControlRTT.Kernel.RtDef ControlRTT.Lib.CInt ControlRTT.Lib.Runs ControlRTT.Lib.Tiling
  ControlRTT.Lib.WordMem

/-- A free block that the search for `n` bytes comes to and takes. -/
def Available (s : Heap) (bs : List Block) (n : Nat) : Prop :=
  ∃ x ∈ startsOf false 0 bs, s.lfree ≤ x ∧ n ≤ s.dataSize x ∧ x + sizeofStructMem + n < s.heapEnd

/-- The call returns a block. -/
def Grants (s : Heap) (size : Nat) : Prop := ∃ t p, rtMalloc s size = some (t, p) ∧ p ≠ 0

section
variable {s s' : Heap} {pre mid post bs : List Block} {len size fuel ptr x n : Nat}

/-! ## The search -/

theorem findFit_lt (hfind : findFit s size fuel ptr = some (some x)) :
    x < usub s.memSizeAligned size := by
  induction fuel generalizing ptr with
  | zero => cases hfind
  | succ fuel ih =>
    unfold findFit at hfind
    split at hfind
    · rename_i hbound
      split at hfind
      · obtain rfl := Option.some.inj (Option.some.inj hfind)
        exact hbound
      · exact ih hfind
    · cases Option.some.inj hfind

theorem Chain.le_heapEnd (h : Chain s bs) (hb : Bound 0 bs ptr) : ptr ≤ s.heapEnd := by
  rcases hb.cases with hptr | ⟨pre, b, post, rfl, hptr⟩
  · rw [Nat.zero_add, h.reaches] at hptr
    exact Nat.le_of_eq hptr
  · rw [Nat.zero_add] at hptr
    rw [hptr]
    exact Nat.le_of_lt h.start_lt

theorem Chain.le_next (h : Chain s bs) (hb : Bound 0 bs ptr) : ptr ≤ (s.hdr ptr).next := by
  rcases hb.cases with hptr | ⟨pre, b, post, rfl, hptr⟩
  · rw [Nat.zero_add, h.reaches] at hptr
    rw [hptr, h.hdr_end.2]
  · rw [Nat.zero_add] at hptr
    rw [hptr, h.hdr_start]
    exact Nat.le_add_right _ _

theorem Chain.le_findFit (h : Chain s bs) (hb : Bound 0 bs ptr)
    (hfind : SmallMem.findFit s size fuel ptr = some (some x)) : ptr ≤ x := by
  induction fuel generalizing ptr with
  | zero => cases hfind
  | succ fuel ih =>
    unfold SmallMem.findFit at hfind
    split at hfind
    · split at hfind
      · exact Nat.le_of_eq (Option.some.inj (Option.some.inj hfind))
      · exact Nat.le_trans (h.le_next hb) (ih (h.bound_next hb) hfind)
    · cases Option.some.inj hfind

/-- A free block with room ends the search, if the bound has not ended it before. -/
theorem Chain.findFit_reaches (h : Chain s ((pre ++ mid) ++ ⟨len, false⟩ :: post))
    (hptr : ptr = extent pre) (hroom : 12 + size ≤ len)
    (hbound : extent (pre ++ mid) + size < s.memSizeAligned) (hfuel : mid.length < fuel) :
    ∃ x, SmallMem.findFit s size fuel ptr = some (some x) := by
  have hlt := h.heapEnd_lt
  induction fuel generalizing pre mid ptr with
  | zero => exact absurd hfuel (Nat.not_lt_zero _)
  | succ fuel ih =>
    have hle : ptr ≤ extent (pre ++ mid) := by
      rw [hptr, extent_append]
      exact Nat.le_add_right _ _
    have hgo : ptr < usub s.memSizeAligned size := by
      rw [usub_of_le (by omega) (by omega)]
      omega
    unfold SmallMem.findFit
    rw [if_pos hgo]
    cases mid with
    | nil =>
      rw [List.append_nil] at h
      have hend := h.end_le
      simp only [Heap.heapEnd, sizeofStructMem] at hend
      refine ⟨ptr, if_pos ?_⟩
      rw [hptr, h.hdr_start]
      refine ⟨rfl, ?_⟩
      simp only [header, sizeofStructMem]
      rw [u32_of_lt (by omega), usub_of_le (by omega) (by omega)]
      omega
    | cons b mid =>
      split
      · exact ⟨ptr, rfl⟩
      · have hnext : (s.hdr ptr).next = extent (pre ++ [b]) := by
          have hfirst : Chain s (pre ++ b :: (mid ++ ⟨len, false⟩ :: post)) := by
            simpa only [List.append_assoc, List.cons_append] using h
          rw [hptr, hfirst.hdr_start]
          simp [header]
        have hlater : pre ++ b :: mid = (pre ++ [b]) ++ mid := List.append_cons pre b mid
        rw [hlater] at hbound
        refine ih ?_ hnext hbound (Nat.lt_of_succ_lt_succ hfuel)
        rw [← hlater]
        exact h

/-! ## The block that is taken -/

theorem Chain.nextFree_ends (h : Chain s bs) (hb : Bound 0 bs ptr)
    (hfuel : s.heapEnd < ptr + fuel) : ∃ l, SmallMem.nextFree s fuel ptr = some l := by
  induction fuel generalizing ptr with
  | zero =>
    have hend : ptr ≤ s.heapEnd := h.le_heapEnd hb
    omega
  | succ fuel ih =>
    unfold SmallMem.nextFree
    split
    · rename_i hgo
      refine ih (h.bound_next hb) ?_
      rcases hb.cases with hptr | ⟨pre, b, post, rfl, hptr⟩
      · rw [h.reaches, Nat.zero_add] at hptr
        exact absurd hptr hgo.2
      · have hlen := h.tiled.header.2
        rw [Nat.zero_add] at hptr
        rw [hptr, h.hdr_start]
        simp only [header, sizeofStructMem] at hlen ⊢
        omega
    · exact ⟨_, rfl⟩

theorem Blocks.take_ends (h : Blocks s (pre ++ ⟨len, false⟩ :: post)) (hsize : 4 ∣ size)
    (hroom : 12 + size ≤ len) : ∃ s', takeBlock s size (extent pre) = some s' ∧
      SamePlace s s' := by
  obtain ⟨len', post', -, hcut⟩ := h.cut hsize hroom
  have hmarked := hcut.chain.mark true
  have hbound := hcut.bound s.lfree h.lfree
  have hplace := hcut.place
  unfold takeBlock
  rw [← hcut.lfree] at hbound
  generalize cutBlock s size (extent pre) = s₁ at hmarked hbound hplace
  dsimp only
  split
  · have hl : Bound 0 (pre ++ ⟨len', true⟩ :: post') s₁.lfree := by
      simpa only [bound_append, bound_cons] using hbound
    obtain ⟨l, hnext⟩ := hmarked.nextFree_ends hl (Nat.lt_add_left _ (Nat.lt_succ_self _))
    have hnext' : SmallMem.nextFree _ _ _ = some l := hnext
    exact ⟨_, Option.map_eq_some_iff.mpr ⟨l, hnext', rfl⟩, hplace⟩
  · exact ⟨_, rfl, hplace⟩

/-- The search grants a request exactly if a block is available. -/
theorem Blocks.allocate_iff (h : Blocks s bs) (hsize : 4 ∣ n) :
    (∃ t p, SmallMem.allocate s n = some (t, p) ∧ p ≠ 0) ↔ Available s bs n := by
  have hlt := h.chain.heapEnd_lt
  constructor
  · rintro ⟨t, p, hcall, hp⟩
    obtain ⟨_ | ptr, hfind, hcall⟩ := Option.bind_eq_some_iff.mp hcall
    · exact absurd (Prod.mk.inj (Option.some.inj hcall)).2.symm hp
    · have hbound := findFit_lt hfind
      have hle := h.chain.le_findFit h.lfree hfind
      obtain ⟨pre, len, post, rfl, rfl, hlen⟩ := h.chain.findFit h.lfree hfind
      have hend := h.chain.end_le
      simp only [Heap.heapEnd, sizeofStructMem] at hend
      rw [usub_of_le (by omega) (by omega)] at hbound
      refine ⟨extent pre, ?_, hle, ?_, ?_⟩
      · simp
      · rw [h.chain.dataSize]
        exact Nat.le_sub_of_add_le' hlen
      · simp only [Heap.heapEnd, sizeofStructMem]
        omega
  · rintro ⟨x, hx, hlow, hroom, hbound⟩
    obtain ⟨pre, ⟨len, _⟩, post, rfl, rfl, rfl⟩ := mem_startsOf hx
    rw [Nat.zero_add] at hlow hroom hbound
    obtain ⟨first, mid, rfl, hlfree⟩ := h.lfree.split hlow
    have hend := h.chain.end_le
    have hlen := h.chain.tiled.header.2
    have hmid : mid.length ≤ extent mid := length_le_extent fun b hb => h.chain.pos b (by simp [hb])
    rw [h.chain.dataSize] at hroom
    simp only [Heap.heapEnd, sizeofStructMem, extent_append] at hbound hroom hlen hend
    have hfuel : mid.length < s.fuel := by
      unfold Heap.fuel Heap.heapEnd
      omega
    have hbound' : extent (first ++ mid) + n < s.memSizeAligned := by
      rw [extent_append]
      omega
    obtain ⟨x, hfind⟩ := h.chain.findFit_reaches hlfree (by omega) hbound' hfuel
    have hxlt := findFit_lt hfind
    obtain ⟨pre, len, post, hblocks, rfl, hlen⟩ := h.chain.findFit h.lfree hfind
    rw [hblocks] at h
    have hend := h.chain.end_le
    have halign := h.chain.aligned
    have hstart := h.chain.dvd_start
    obtain ⟨t, htake, hplace⟩ := h.take_ends hsize hlen
    have hassert : t.heapPtr + extent pre + sizeofStructMem + n ≤ t.heapPtr + t.heapEnd ∧
        (t.heapPtr + extent pre + sizeofStructMem) % rtAlignSize = 0 ∧
        (t.heapPtr + extent pre) % rtAlignSize = 0 := by
      unfold Heap.heapEnd
      rw [hplace.1, hplace.2]
      simp only [Heap.heapEnd, sizeofStructMem, rtAlignSize] at hend ⊢
      omega
    refine ⟨t, t.heapPtr + extent pre + sizeofStructMem, ?_, Chain.ptr_ne_zero _ _⟩
    refine Option.bind_eq_some_iff.mpr ⟨_, hfind, Option.bind_eq_some_iff.mpr ⟨t, htake, ?_⟩⟩
    exact if_pos hassert

theorem dvd_searched (size : Nat) : 4 ∣ searched size := by
  have hdvd : 4 ∣ rtAlign size rtAlignSize := dvd_rtAlign size rtAlignSize
  unfold searched minSize
  split <;> omega

theorem rtAlign_le_searched (size : Nat) : rtAlign size rtAlignSize ≤ searched size := by
  unfold searched
  split <;> omega

/-- The request is granted exactly if it is not zero and a block is available. -/
theorem Blocks.grants_iff (h : Blocks s bs) (size : Nat) :
    Grants s size ↔ size ≠ 0 ∧ Available s bs (searched size) := by
  unfold Grants rtMalloc
  by_cases hzero : size = 0
  · simp [hzero]
  · rw [if_neg hzero]
    dsimp only
    split
    · rename_i hbig
      refine iff_of_false (by simp) ?_
      rintro ⟨-, x, -, -, -, hbound⟩
      have hle := rtAlign_le_searched size
      simp only [Heap.heapEnd, sizeofStructMem] at hbound
      omega
    · rw [and_iff_right hzero]
      exact h.allocate_iff (dvd_searched size)

end

/-! ## Runs -/

/-- A free block has at least `n` bytes of data. -/
def HasRoom (s : HeapRun) (n x : Nat) : Prop :=
  (∃ bs, Intact s bs ∧ x ∈ startsOf false 0 bs) ∧ n ≤ s.heap.dataSize x

/-- The request is not refused while a free block has room for it. -/
def Complete (s : HeapRun) (size : Nat) : Prop :=
  size ≠ 0 → (∃ x, HasRoom s (searched size) x) → Grants s.heap size

/-- If free blocks have room for the request, one of them is not filled by it up to `heap_end`. -/
def NotAtEnd (s : HeapRun) (size : Nat) : Prop :=
  size ≠ 0 → (∃ x, HasRoom s (searched size) x) →
    ∃ x, HasRoom s (searched size) x ∧ x + sizeofStructMem + searched size ≠ s.heap.heapEnd

section
variable {s : HeapRun} {bs : List Block} {n x : Nat}

theorem Owned.hasRoom_iff (h : Owned s bs) :
    HasRoom s n x ↔ x ∈ startsOf false 0 bs ∧ n ≤ s.heap.dataSize x := by
  refine and_congr_left fun _ => ⟨?_, fun hx => ⟨bs, h.intact, hx⟩⟩
  rintro ⟨bs', hintact, hx⟩
  exact h.unique hintact ▸ hx

/-- Where `lfree` is the lowest free block, a block with room is available if the request does not
fill it up to `heap_end`. -/
theorem Owned.available_iff (h : Owned s bs) (hlow : Lowest s) : Available s.heap bs n ↔
    ∃ x, HasRoom s n x ∧ x + sizeofStructMem + n ≠ s.heap.heapEnd := by
  have hl := h.blocks.chain.low_iff.mp (hlow.low h)
  refine exists_congr fun x => ?_
  rw [h.hasRoom_iff, and_assoc]
  refine and_congr_right fun hx => ?_
  have hle : s.heap.lfree ≤ x := hl ▸ lowest_le_of_mem hx
  rw [and_iff_right hle]
  refine and_congr_right fun hroom => ?_
  obtain ⟨pre, ⟨len, u⟩, post, rfl, -, rfl⟩ := mem_startsOf hx
  have hend := h.blocks.chain.end_le
  have hlen := h.blocks.chain.tiled.header.2
  rw [Nat.zero_add, h.blocks.chain.dataSize] at hroom
  simp only [sizeofStructMem] at hlen hroom hend ⊢
  omega

theorem Owned.complete_iff (h : Owned s bs) (hlow : Lowest s) (size : Nat) :
    Complete s size ↔ NotAtEnd s size := by
  refine forall_congr' fun hsize => forall_congr' fun _ => ?_
  rw [h.blocks.grants_iff, and_iff_right hsize, h.available_iff hlow]

end

/-- In a run of good steps, where `lfree` is the lowest free block, a request is not refused while
a free block has room for it, exactly if not all of them are filled by it up to `heap_end`. -/
theorem complete_throughout_iff (mem : Mem) (beginAddr endAddr : Nat) (hend : endAddr < 2 ^ 32)
    (s : HeapRun) (hstart : start mem beginAddr endAddr = some s) (es : List Event)
    (hgood : Along step Good s es) : Throughout step (fun s => Lowest s →
      ∀ size, size + (rtAlignSize - 1) < 2 ^ 32 → (Complete s size ↔ NotAtEnd s size)) s es :=
  throughout_of_along (fun _ ⟨_, h⟩ hlow size _ => h.complete_iff hlow size)
    (fun _ _ _ h hgood hstep => Owned.step h hgood hstep) (start_owned hend hstart) hgood

theorem complete_after_malloc : ∃ s, start (fun _ => 0) 0 200 = some s ∧
    Throughout step (fun s => Lowest s → ∀ size, size + (rtAlignSize - 1) < 2 ^ 32 →
      (Complete s size ↔ NotAtEnd s size)) s [.malloc 10, .free 12] := by
  obtain ⟨s, hs⟩ : ∃ s, start (fun _ => 0) 0 200 = some s := ⟨_, rfl⟩
  exact ⟨s, hs, complete_throughout_iff _ 0 200 (by decide) s hs _
    fun _ _ => ⟨trivial, fun _ _ => ⟨trivial, trivial⟩⟩⟩

/-- The whole heap has 176 bytes of data, and a request for them is refused. -/
theorem whole_heap_refused : ∃ s, start (fun _ => 0) 0 200 = some s ∧ Lowest s ∧
    ¬ Complete s 176 := by
  obtain ⟨s, hs⟩ : ∃ s, start (fun _ => 0) 0 200 = some s := ⟨_, rfl⟩
  obtain ⟨len, howned, -⟩ := start_single (by decide) hs
  have hrun : (start (fun _ => 0) 0 200).bind (fun s => (rtMalloc s.heap 176).map fun result =>
      (result.2, s.heap.dataSize 0)) = some (0, 176) := by decide +kernel
  rw [hs] at hrun
  obtain ⟨⟨t, p⟩, hcall, heq⟩ := Option.map_eq_some_iff.mp hrun
  obtain ⟨hp, hroom⟩ := Prod.mk.inj heq
  refine ⟨s, hs, howned.lowest (start_low (by decide) hs), fun hcomplete => ?_⟩
  have hfirst : HasRoom s (searched 176) 0 :=
    howned.hasRoom_iff.mpr ⟨List.mem_cons_self, Nat.le_of_eq hroom.symm⟩
  obtain ⟨t', p', hcall', hp'⟩ := hcomplete (by decide) ⟨0, hfirst⟩
  obtain ⟨-, rfl⟩ := Prod.mk.inj (Option.some.inj (hcall'.symm.trans hcall))
  exact hp' hp

end ControlRTT.Kernel.SmallMem

import ControlRTT.Kernel.MemHeapRuns

/-! # What a memory heap gives

An allocation is compared with the free items, and what is given with what was asked for. The
comparison with `available_size` refuses what would use up the last free byte, and a size of
nearly `2 ^ 32` is aligned to zero. -/
namespace ControlRTT.Kernel.MemHeap
open ControlRTT.Kernel.RtDef ControlRTT.Lib.CInt ControlRTT.Lib.Extents ControlRTT.Lib.LinkedRing
  ControlRTT.Lib.Runs ControlRTT.Lib.Tiling ControlRTT.Lib.WordMem

/-- The items from `x` on along the free list. -/
def freeWalk (s : Memheap) : Nat → Nat → List Nat
  | 0, _ => []
  | fuel + 1, x => if x = s.freeList then [] else x :: freeWalk s fuel (nextFree s.mem x)

def freeItems (s : Memheap) : List Nat := freeWalk s s.poolSize (nextFree s.mem s.freeList)

/-- A free item has room for so many bytes. -/
def HasFree (s : Memheap) (size : Nat) : Prop := ∃ x ∈ freeItems s, size ≤ memitemSize s.mem x

instance (s : Memheap) (size : Nat) : Decidable (HasFree s size) :=
  inferInstanceAs (Decidable (∃ x ∈ freeItems s, size ≤ memitemSize s.mem x))

/-- What `request` is for, in numbers of any size: the size rounded up to words, and at least the
minimum. -/
def need (size : Nat) : Nat :=
  max rtMemheapMinialloc ((size + (rtAlignSize - 1)) / rtAlignSize * rtAlignSize)

/-- An allocation succeeds exactly if a free item has room, and what is given has room for what was
asked for. -/
def Meets (s : HeapRun) : Event → Prop
  | .alloc size => ∀ t ptr, rtMemheapAlloc s.heap size = some (t, ptr) →
    (ptr ≠ 0 ↔ HasFree s.heap (need size)) ∧ (ptr ≠ 0 → size ≤ (dataOf t ptr).len)
  | .realloc ptr newsize => ∀ t newPtr, rtMemheapRealloc s.heap ptr newsize = some (t, newPtr) →
    newPtr ≠ 0 → newsize ≤ (dataOf t newPtr).len
  | .free _ => True
  | .store _ _ _ => True

/-- A new item of the least size would be given. -/
def GivesLeast (s : Memheap) : Prop :=
  rtMemheapMinialloc < s.availableSize ∧ HasFree s rtMemheapMinialloc

instance (s : Memheap) : Decidable (GivesLeast s) := inferInstanceAs (Decidable (_ ∧ _))

/-- The size can be aligned, and it is not that of the one free item that is left. Sizes that
cannot be aligned get the least item, so that there must be none for them. -/
def Fits (s : HeapRun) : Event → Prop
  | .alloc size =>
    if size + 3 < 2 ^ 32 then
      ¬ (request size = s.heap.availableSize ∧ HasFree s.heap (request size))
    else ¬ GivesLeast s.heap
  | .realloc ptr newsize =>
    newsize = 0 ∨ newsize + 3 < 2 ^ 32 ∧ ¬ Wraps s.heap ptr newsize ∨
      ptr = 0 ∧ ¬ GivesLeast s.heap
  | .free _ => True
  | .store _ _ _ => True

instance (s : HeapRun) : DecidablePred (Fits s)
  | .alloc size => inferInstanceAs (Decidable (if size + 3 < 2 ^ 32 then
      ¬ (request size = s.heap.availableSize ∧ HasFree s.heap (request size))
    else ¬ GivesLeast s.heap))
  | .realloc ptr newsize => inferInstanceAs (Decidable (newsize = 0 ∨
      newsize + 3 < 2 ^ 32 ∧ ¬ Wraps s.heap ptr newsize ∨ ptr = 0 ∧ ¬ GivesLeast s.heap))
  | .free _ | .store _ _ _ => .isTrue trivial

section
variable {s : HeapRun} {t t' : Memheap} {bs : List Block} {xs : List Nat} {live : List Nat}
  {n size ptr x l : Nat}

/-- The walk goes over the free list. -/
theorem freeWalk_ring {rest : List Nat} {fuel : Nat}
    (hr : (x :: (rest ++ [t.freeList])).IsChain (Follows (nextFree t.mem) (prevFree t.mem)))
    (hout : t.freeList ∉ rest) (hfuel : rest.length < fuel) :
    freeWalk t fuel (nextFree t.mem x) = rest := by
  induction rest generalizing x fuel with
  | nil =>
    obtain ⟨⟨hnext, -⟩, -⟩ := List.isChain_cons_cons.mp hr
    obtain ⟨fuel, rfl⟩ := Nat.exists_eq_add_one_of_ne_zero (Nat.ne_of_gt hfuel)
    rw [freeWalk, hnext, if_pos rfl]
  | cons z rest ih =>
    obtain ⟨⟨hnext, -⟩, hrest⟩ := List.isChain_cons_cons.mp hr
    obtain ⟨hz, hout⟩ := not_or.mp (fun hor => hout (List.mem_cons.mpr hor))
    obtain ⟨fuel, rfl⟩ := Nat.exists_eq_add_one_of_ne_zero (Nat.ne_of_gt (Nat.zero_lt_of_lt hfuel))
    rw [freeWalk, hnext, if_neg (Ne.symm hz), ih hrest hout (Nat.lt_of_succ_lt_succ hfuel)]

theorem Blocks.freeItems (h : Blocks t bs xs) : freeItems t = xs := by
  have hlength := h.perm.length_eq
  have hle := length_startsOf_le h.linked.chain.pos false t.startAddr
  have hend := h.linked.chain.reaches
  have htailer := h.linked.chain.tailer_lt.2
  simp only [rtMemheapSize] at htailer
  exact freeWalk_ring h.linked.ring (List.nodup_cons.mp h.linked.all.1).1 (by omega)

theorem Blocks.hasFree_iff (h : Blocks t bs xs) :
    HasFree t n ↔ ∃ x ∈ startsOf false t.startAddr bs, n ≤ memitemSize t.mem x := by
  unfold HasFree
  rw [h.freeItems]
  simp only [h.perm.mem_iff]

/-- A free item is not larger than all of them together. -/
theorem Blocks.memitemSize_le (h : Blocks t bs xs) (hx : x ∈ startsOf false t.startAddr bs) :
    memitemSize t.mem x ≤ t.availableSize := by
  obtain ⟨pre, ⟨len, u⟩, post, rfl, rfl, rfl⟩ := mem_startsOf hx
  rw [h.linked.chain.size_of, h.avail, total_append, total_cons, freeLen_free]
  dsimp only
  omega

theorem Blocks.used_len (h : Blocks t bs xs) (hx : (x, l) ∈ usedSpans t.startAddr bs) :
    (dataOf t (x + rtMemheapSize)).len = l - rtMemheapSize ∧ l < 2 ^ 32 := by
  obtain ⟨pre, post, rfl, rfl⟩ := mem_usedSpans hx
  have hend := h.linked.chain.end_le
  have htailer := h.linked.chain.tailer_lt.1
  simp only [rtMemheapSize] at htailer
  dsimp only at hend
  exact ⟨by rw [h.linked.chain.dataOf], by omega⟩

/-- A new item has room. -/
theorem Gives.len_le (hg : Gives t bs n t' ptr) (hne : ptr ≠ 0) :
    n ≤ (dataOf t' ptr).len ∧ (dataOf t' ptr).len + 3 < 2 ^ 32 := by
  obtain ⟨pre, len, post, ys, hblocks, hpool, rfl, hlen, -⟩ := hg.resolve_left fun h => hne h.1
  have hstart : t'.startAddr = t.startAddr := congrArg Pool.startAddr hpool
  rw [← hstart]
  obtain ⟨heq, hlt⟩ := hblocks.used_len (x := t'.startAddr + extent pre) (l := len) (by simp)
  simp only [rtMemheapSize] at heq ⊢
  omega

/-- So has one that is resized. -/
theorem Resizes.len_le {len : Nat} (hr : Resizes t bs x len n t' ptr) (hne : ptr ≠ 0) :
    n ≤ (dataOf t' ptr).len ∧ (dataOf t' ptr).len + 3 < 2 ^ 32 := by
  obtain ⟨y, l, bs', ys, hblocks, hpool, rfl, hlen, hmem, -⟩ := hr.resolve_left fun h => hne h.1
  have hstart : t'.startAddr = t.startAddr := congrArg Pool.startAddr hpool
  rw [← hstart] at hmem
  obtain ⟨heq, hlt⟩ := hblocks.used_len hmem
  simp only [rtMemheapSize] at heq ⊢
  omega

theorem forall_result_iff {α β : Type} {r : Option (α × β)} {a : α} {b : β} {P : α → β → Prop}
    (h : r = some (a, b)) : (∀ a' b', r = some (a', b') → P a' b') ↔ P a b := by
  refine ⟨fun hall => hall a b h, fun hP a' b' heq => ?_⟩
  obtain ⟨rfl, rfl⟩ := Prod.mk.inj (Option.some.inj (h.symm.trans heq))
  exact hP

theorem le_need (size : Nat) : size ≤ need size := by
  unfold need rtAlignSize
  omega

theorem request_eq_need (h : size + 3 < 2 ^ 32) : request size = need size := by
  have hsum : u32 (size + 4 - 1) = size + 3 := u32_of_lt (by omega)
  unfold request need rtAlign rtAlignDown rtAlignSize rtMemheapMinialloc
  rw [hsum]
  dsimp only
  split <;> omega

/-- A size that is aligned to zero. -/
theorem request_of_ge (h : ¬ size + 3 < 2 ^ 32) (hlt : size < 2 ^ 32) :
    request size = rtMemheapMinialloc ∧ 2 ^ 32 ≤ need size := by
  have hsum : u32 (size + 4 - 1) < 3 := by
    unfold u32
    omega
  unfold request need rtAlign rtAlignDown rtAlignSize rtMemheapMinialloc
  dsimp only
  refine ⟨?_, by omega⟩
  split <;> omega

theorem not_hasFree_of_ge (h : 2 ^ 32 ≤ n) : ¬ HasFree t n := by
  rintro ⟨x, -, hx⟩
  have hlt : memitemSize t.mem x < 2 ^ 32 := Nat.mod_lt _ (by decide)
  omega

theorem Blocks.le_of_hasFree (h : Blocks t bs xs) (hfree : HasFree t n) : n ≤ t.availableSize := by
  obtain ⟨x, hx, hle⟩ := h.hasFree_iff.mp hfree
  exact Nat.le_trans hle (h.memitemSize_le hx)

theorem Owned.alloc_meets_iff (h : Owned s bs xs) (hsize : size < 2 ^ 32) :
    Meets s (.alloc size) ↔ Fits s (.alloc size) := by
  obtain ⟨t, ptr, halloc, hgives, hiff⟩ := h.blocks.alloc size
  rw [← h.blocks.hasFree_iff] at hiff
  have hmeets : Meets s (.alloc size) ↔ (ptr ≠ 0 ↔ HasFree s.heap (need size)) ∧
      (ptr ≠ 0 → size ≤ (dataOf t ptr).len) := forall_result_iff halloc
  rw [hmeets]
  unfold Fits
  dsimp only
  split
  · rename_i hsmall
    have hneed := request_eq_need hsmall
    have hle := le_need size
    have hroom : ptr ≠ 0 → size ≤ (dataOf t ptr).len := fun hne => by
      have hlen := (hgives.len_le hne).1
      omega
    rw [← hneed, hiff]
    rw [hiff] at hroom
    constructor
    · rintro ⟨hgiven, -⟩ ⟨heq, hfree⟩
      exact Nat.ne_of_lt (hgiven.mpr hfree).1 heq
    · intro hnot
      refine ⟨⟨And.right, fun hfree => ⟨?_, hfree⟩⟩, hroom⟩
      exact Nat.lt_of_le_of_ne (h.blocks.le_of_hasFree hfree) fun heq => hnot ⟨heq, hfree⟩
  · rename_i hbig
    obtain ⟨hleast, hneed⟩ := request_of_ge hbig hsize
    rw [hleast] at hiff
    rw [hiff, iff_false_intro (not_hasFree_of_ge hneed)]
    constructor
    · rintro ⟨hnone, -⟩ hgiven
      exact hnone.mp hgiven
    · intro hnot
      exact ⟨iff_of_false hnot id, fun hgiven => absurd hgiven hnot⟩

theorem Owned.realloc_meets_iff (h : Owned s bs xs) (hsize : n < 2 ^ 32)
    (hmem : ptr = 0 ∨ ptr ∈ s.live) : Meets s (.realloc ptr n) ↔ Fits s (.realloc ptr n) := by
  obtain ⟨t, p, hcall, hcases⟩ := h.realloc_cases hmem n
  have hmeets : Meets s (.realloc ptr n) ↔ (p ≠ 0 → n ≤ (dataOf t p).len) :=
    forall_result_iff hcall
  have hle := le_need n
  rw [hmeets]
  unfold Fits
  rcases hcases with ⟨hzero, rfl, -⟩ | ⟨hn, rfl, hgives, hiff⟩ |
    ⟨hn, hwraps, hlive, x, len, rfl, hres, hlen, hrefused⟩ | ⟨hwraps, rfl, hshort, -⟩
  · exact iff_of_true (fun hne => absurd rfl hne) (.inl hzero)
  · rw [← h.blocks.hasFree_iff] at hiff
    by_cases hsmall : n + 3 < 2 ^ 32
    · have hneed := request_eq_need hsmall
      refine iff_of_true (fun hne => ?_) (.inr (.inl ⟨hsmall, fun hwraps => hwraps.1 rfl⟩))
      have hroom := (hgives.len_le hne).1
      omega
    · obtain ⟨hleast, -⟩ := request_of_ge hsmall hsize
      rw [hleast] at hiff
      constructor
      · intro hroom
        refine .inr (.inr ⟨rfl, fun hgiven => ?_⟩)
        have hne := hiff.mpr hgiven
        have hlen := (hgives.len_le hne).2
        have := hroom hne
        omega
      · rintro (hzero | ⟨hfits, -⟩ | ⟨-, hnone⟩) hne
        · exact absurd hzero hn
        · exact absurd hfits hsmall
        · exact absurd (hiff.mp hne) hnone
  · by_cases hsmall : n + 3 < 2 ^ 32
    · have hneed := request_eq_need hsmall
      refine iff_of_true (fun hne => ?_) (.inr (.inl ⟨hsmall, hwraps⟩))
      have hroom := (hres.len_le hne).1
      omega
    · obtain ⟨hleast, -⟩ := request_of_ge hsmall hsize
      have hne : p ≠ 0 := fun hp => by
        have hshort := hrefused hp
        rw [hleast] at hshort
        simp only [rtMemheapMinialloc] at hshort
        omega
      refine iff_of_false (fun hroom => ?_) ?_
      · have hlt := (hres.len_le hne).2
        have := hroom hne
        omega
      · rintro (hzero | ⟨hfits, -⟩ | ⟨hnull, -⟩)
        · exact hn hzero
        · exact hsmall hfits
        · exact ptr_ne_zero x hnull
  · refine iff_of_false (fun hroom => ?_) ?_
    · have hle := hroom hwraps.1
      rw [hshort] at hle
      exact hwraps.2.1 (Nat.le_zero.mp hle)
    · rintro (hzero | ⟨-, hnot⟩ | ⟨hnull, -⟩)
      · exact hwraps.2.1 hzero
      · exact hnot hwraps
      · exact hwraps.1 hnull

theorem Fits.good {e : Event} (h : Fits s e) : Good s e := by
  cases e with
  | realloc ptr n =>
    intro hwraps
    rcases h with hzero | ⟨-, hnot⟩ | ⟨hnull, -⟩
    · exact hwraps.2.1 hzero
    · exact hnot hwraps
    · exact hwraps.1 hnull
  | alloc _ | free _ | store _ _ _ => trivial

theorem Owned.meets_iff {e : Event} (h : Owned s bs xs) (hallowed : Allowed s e) :
    Meets s e ↔ Fits s e := by
  cases e with
  | alloc size => exact h.alloc_meets_iff hallowed
  | realloc ptr n => exact h.realloc_meets_iff hallowed.1 hallowed.2
  | free _ | store _ _ _ => exact Iff.rfl

end

/-- In every state of a run in which no item is to grow by a size that wraps, a call gives what it
should exactly if its size fits. -/
theorem meets_throughout_iff (r : Region) {es : List Event} (h : Along step Good (start r) es) :
    Throughout step (fun s => ∀ e, Allowed s e → (Meets s e ↔ Fits s e)) (start r) es :=
  throughout_of_along (J := fun s => ∃ bs xs, Owned s bs xs)
    (fun _ ⟨_, _, h⟩ _ hallowed => h.meets_iff hallowed)
    (fun _ _ _ h hgood hstep => (owned_step h hstep).1 hgood) ⟨_, _, start_owned r⟩ h

/-- The states that items cut off, written to, given back and resized leave behind them. -/
theorem meets_throughout_iff_small :
    Throughout step (fun s => ∀ e, Allowed s e → (Meets s e ↔ Fits s e)) (start smallRegion)
      [.alloc 16, .alloc 20, .store 0x2018 4 7, .free 0x2018, .realloc 0x2040 60, .alloc 10,
        .realloc 0x2040 8] :=
  meets_throughout_iff smallRegion (by decide +kernel)

/-- The one free item has 208 bytes, and an allocation of 208 bytes is refused. -/
theorem whole_item_refused :
    ¬ ∀ (r : Region) (es : List Event),
      Throughout step (fun s => ∀ e, Allowed s e → Meets s e) (start r) es := by
  intro h
  have hmeets := h smallRegion [] (.alloc 208) (by decide)
  exact absurd (((start_owned smallRegion).meets_iff (by decide)).mp hmeets) (by decide +kernel)

/-- Every call of a run gives what it should exactly if every size fits. -/
theorem serves_along_iff (r : Region) (es : List Event) :
    Along step Meets (start r) es ↔ Along step Fits (start r) es := by
  refine along_iff_along (J := fun s => ∃ bs xs, Owned s bs xs)
    (fun s e s' h hfits hstep => (owned_step h hstep).1 hfits.good)
    (fun s e s' h hstep => ?_) ⟨_, _, start_owned r⟩ es
  obtain ⟨bs, xs, h⟩ := h
  exact h.meets_iff (Option.ite_none_right_eq_some.mp hstep).1

/-- Items are cut off, given back and resized. A size that is aligned to zero gets the least item,
and so does the size of the only free item get none. -/
theorem serves_along_iff_small :
    Along step Meets (start smallRegion) [.alloc 16, .alloc 20, .free 0x2018, .realloc 0x2040 60,
      .alloc 10, .realloc 0x2040 8] ∧
    ¬ Along step Meets (start smallRegion) [.alloc 0xfffffffe] ∧
    ¬ Along step Meets (start smallRegion) [.alloc 208] :=
  ⟨(serves_along_iff _ _).mpr (by decide +kernel),
    fun h => absurd ((serves_along_iff _ _).mp h) (by decide +kernel),
    fun h => absurd ((serves_along_iff _ _).mp h) (by decide +kernel)⟩

end ControlRTT.Kernel.MemHeap

import ControlRTT.Kernel.SmallMemRuns

/-! # What the blocks of the small-memory heap hold (mem.c)

A call writes to headers and to the block it is about: the other used blocks keep their data.
`rt_realloc` keeps the data of its block, unless `RT_ALIGN` turns the size into zero, and the block
is freed (`preserved_throughout_iff`). -/
namespace ControlRTT.Kernel.SmallMem
open ControlRTT.Kernel.RtDef ControlRTT.Lib.CInt ControlRTT.Lib.Extents ControlRTT.Lib.Runs
  ControlRTT.Lib.Tiling ControlRTT.Lib.WordMem

/-- The block at `y` keeps its length and its data. -/
def Kept (s t : Heap) (y : Nat) : Prop :=
  ∀ x, x = y + 4 ∨ y + 12 ≤ x ∧ x < (s.hdr y).next → t.mem x = s.mem x

section
variable {s t u : Heap} {pre post bs : List Block} {len size x y z n : Nat}

theorem Kept.refl (s : Heap) (y : Nat) : Kept s s y := fun _ _ => rfl

theorem Kept.next (h : Kept s t y) : (t.hdr y).next = (s.hdr y).next := h (y + 4) (.inl rfl)

theorem Kept.trans (h : Kept s t y) (h' : Kept t u y) : Kept s u y := by
  intro x hx
  rw [h' x (h.next.symm ▸ hx), h x hx]

theorem Kept.dataSize (h : Kept s t y) : t.dataSize y = s.dataSize y := by
  unfold Heap.dataSize
  rw [h.next]

theorem Chain.header_le (h : Chain s bs) (hy : y ∈ startsOf true 0 bs) :
    y + 12 ≤ (s.hdr y).next := by
  obtain ⟨pre, c, post, rfl, -, rfl⟩ := mem_startsOf hy
  have hlen := h.tiled.header.2
  rw [Nat.zero_add, h.hdr_start]
  exact Nat.add_le_add_left hlen _

theorem Chain.data_next (h : Chain s bs) (hy : y ∈ startsOf true 0 bs) :
    (s.hdr y).next = y + 12 + s.dataSize y := by
  obtain ⟨pre, c, post, rfl, -, rfl⟩ := mem_startsOf hy
  have hlen := h.tiled.header.2
  rw [Nat.zero_add, h.dataSize, h.hdr_start]
  simp only [header, sizeofStructMem] at hlen ⊢
  omega

theorem Chain.memOf_start (h : Chain s bs) (hy : y ∈ startsOf true 0 bs) :
    s.memOf (s.heapPtr + y + sizeofStructMem) = y := by
  obtain ⟨pre, c, post, rfl, -, rfl⟩ := mem_startsOf hy
  rw [Nat.zero_add]
  exact h.memOf h.start_lt

/-- Another block is before a used one or behind it. -/
theorem Chain.apart {b : Block} (h : Chain s (pre ++ b :: post))
    (hy : y ∈ startsOf true 0 (pre ++ b :: post)) (hne : y ≠ extent pre) :
    extent pre + b.len ≤ y ∨ (s.hdr y).next ≤ extent pre := by
  rw [startsOf_append, List.mem_append, Nat.zero_add] at hy
  rcases hy with hy | hy
  · obtain ⟨first, c, mid, rfl, -, rfl⟩ := mem_startsOf hy
    have hfirst : Chain s (first ++ c :: (mid ++ b :: post)) := by
      simpa only [List.append_assoc, List.cons_append] using h
    rw [Nat.zero_add, hfirst.hdr_start]
    refine .inr ?_
    simp only [header, extent_append, extent_cons]
    omega
  · obtain ⟨first, c, mid, hsplit, -, rfl⟩ := mem_startsOf hy
    cases first with
    | nil => exact absurd (by simp) hne
    | cons a first =>
      obtain ⟨rfl, -⟩ := List.cons.inj hsplit
      refine .inl ?_
      rw [extent_cons]
      omega

/-- A header is before a used block or behind it, or it is the one of the block. -/
theorem Chain.bound_apart (h : Chain s bs) (hy : y ∈ startsOf true 0 bs) (hz : Bound 0 bs z) :
    z = y ∨ z + 12 ≤ y ∨ (s.hdr y).next ≤ z := by
  rcases hz.cases with rfl | ⟨pre, b, post, rfl, rfl⟩
  · obtain ⟨pre, c, post, rfl, -, rfl⟩ := mem_startsOf hy
    rw [Nat.zero_add, Nat.zero_add, h.hdr_start, h.reaches]
    exact .inr (.inr h.end_le)
  · rw [Nat.zero_add]
    by_cases hne : y = extent pre
    · exact .inl hne.symm
    · have hlen := h.tiled.header.2
      rcases h.apart hy hne with hbehind | hbefore
      · simp only [sizeofStructMem] at hlen
        exact .inr (.inl (by omega))
      · exact .inr (.inr hbefore)

theorem Chain.link_kept (h : Chain s bs) (hy : y ∈ startsOf true 0 bs) (hx : Bound 0 bs x)
    (hne : x ≠ y) (hz : Bound 0 bs z) : Kept s (s.link x z) y := by
  have hxy := h.bound_apart hy hx
  have hzy := h.bound_apart hy hz
  have hroom := h.header_le hy
  intro w hw
  have hnext : w ≠ z + 8 := by omega
  have hprev : w ≠ x + 4 := by omega
  exact (Mem.set_ne _ _ hnext).trans (Mem.set_ne _ _ hprev)

/-- What is written in one block is not seen in the others. -/
theorem Chain.kept_of_block {m : Mem} {b : Block} (h : Chain s (pre ++ b :: post))
    (hy : y ∈ startsOf true 0 (pre ++ b :: post)) (hne : y ≠ extent pre)
    (hm : ∀ x, x < extent pre ∨ extent pre + b.len ≤ x → m x = s.mem x) :
    Kept s { s with mem := m } y := by
  have hapart := h.apart hy hne
  have hroom := h.header_le hy
  intro x hx
  exact hm x (by omega)

/-! ## Holes -/

theorem Chain.used_ne_free (h : Chain s (pre ++ ⟨len, false⟩ :: post))
    (hy : y ∈ startsOf true 0 (pre ++ ⟨len, false⟩ :: post)) : y ≠ extent pre := by
  rintro rfl
  have hfree := h.hdr_start
  obtain ⟨first, b, mid, hsplit, hused, hstart⟩ := mem_startsOf hy
  rw [hsplit] at h
  rw [hstart, Nat.zero_add, h.hdr_start] at hfree
  simp [header, hused] at hfree

/-- A free block is joined with the one behind it, and the used ones stay. -/
theorem Chain.plugForward_kept (h : Chain s (pre ++ ⟨len, false⟩ :: post))
    (hy : y ∈ startsOf true 0 (pre ++ ⟨len, false⟩ :: post)) : ∃ len' post',
      Chain (SmallMem.plugForward s (extent pre)) (pre ++ ⟨len', false⟩ :: post') ∧
      y ∈ startsOf true 0 (pre ++ ⟨len', false⟩ :: post') ∧
      Kept s (SmallMem.plugForward s (extent pre)) y := by
  rcases post with _ | ⟨⟨l, _ | _⟩, post⟩
  · rw [h.plugForward_stay fun b hb => by cases hb]
    exact ⟨len, [], h, hy, .refl s y⟩
  · rw [h.plugForward_join]
    refine ⟨len + l, post, h.join.of_mem rfl rfl rfl, ?_, ?_⟩
    · simpa [Nat.add_assoc] using hy
    · exact h.link_kept hy (by simp [bound_append]) (h.used_ne_free hy).symm
        (by simp [bound_append, bound_self, Nat.add_assoc])
  · rw [h.plugForward_stay fun b hb => Option.some.inj hb ▸ rfl]
    exact ⟨len, _, h, hy, .refl s y⟩

theorem Chain.plugBackward_kept (h : Chain s (pre ++ ⟨len, false⟩ :: post))
    (hy : y ∈ startsOf true 0 (pre ++ ⟨len, false⟩ :: post)) :
    Kept s (SmallMem.plugBackward s (extent pre)) y := by
  rcases List.eq_nil_or_concat pre with rfl | ⟨pre, ⟨l, _ | _⟩, rfl⟩
  · rw [h.plugBackward_stay fun b hb => by cases hb]
    exact .refl s y
  · simp only [List.concat_eq_append, List.append_assoc, List.cons_append, List.nil_append,
      extent_append, extent_cons, extent_nil, Nat.add_zero] at h hy ⊢
    rw [h.plugBackward_join]
    exact h.link_kept hy (by simp [bound_append]) (h.used_ne_free hy).symm
      (by simp [bound_append, bound_self, Nat.add_assoc])
  · have hused : ∀ b ∈ (pre.concat (Block.mk l true)).getLast?, b.used := fun b hb => by
      simp only [List.concat_eq_append, List.getLast?_concat] at hb
      obtain rfl := Option.some.inj hb
      rfl
    rw [h.plugBackward_stay hused]
    exact .refl s y

theorem Chain.plugHoles_kept (h : Chain s (pre ++ ⟨len, false⟩ :: post))
    (hy : y ∈ startsOf true 0 (pre ++ ⟨len, false⟩ :: post))
    (hplug : SmallMem.plugHoles s (extent pre) = some t) : Kept s t y := by
  obtain ⟨-, heq⟩ := Option.ite_none_right_eq_some.mp hplug
  obtain rfl := Option.some.inj heq
  obtain ⟨len', post', hchain, hy', hkept⟩ := h.plugForward_kept hy
  exact hkept.trans (hchain.plugBackward_kept hy')

/-! ## The calls -/

theorem Chain.mark_kept {b : Block} (h : Chain s (pre ++ b :: post))
    (hy : y ∈ startsOf true 0 (pre ++ b :: post)) (hne : y ≠ extent pre) (v : Nat) :
    Kept s { s with mem := setMagic (setUsed s.mem (extent pre) v) (extent pre) heapMagic } y := by
  have hlen := h.tiled.header.2
  simp only [sizeofStructMem] at hlen
  refine h.kept_of_block hy hne fun x hx => ?_
  have hother : x ≠ extent pre := by omega
  exact (Mem.set_ne _ _ hother).trans (Mem.set_ne _ _ hother)

/-- What `splitBlock` writes: a header, and the links of its neighbours. -/
theorem splitBlock_mem {ptr : Nat}
    (hx : x < ptr + 12 + size ∨ ptr + 24 + size ≤ x) (hlink : x ≠ ptr + 4)
    (hback : x ≠ (s.hdr ptr).next + 8) : (splitBlock s ptr size).mem x = s.mem x := by
  have hcut : setNext (writeHdr s.mem (ptr + sizeofStructMem + size)
      ⟨heapMagic, 0, (s.hdr ptr).next, ptr⟩) ptr (ptr + sizeofStructMem + size) x = s.mem x := by
    simp only [setNext, writeHdr, sizeofStructMem]
    rw [Mem.set_ne _ _ hlink, Mem.set_ne _ _ (by omega), Mem.set_ne _ _ (by omega),
      Mem.set_ne _ _ (by omega)]
  unfold splitBlock
  dsimp only
  split
  · exact (Mem.set_ne _ _ hback).trans hcut
  · exact hcut

theorem Chain.split_kept {u : Bool} (h : Chain s (pre ++ ⟨len, u⟩ :: post))
    (hy : y ∈ startsOf true 0 (pre ++ ⟨len, u⟩ :: post)) (hne : y ≠ extent pre)
    (hroom : size + 24 ≤ len) : Kept s (splitBlock s (extent pre) size) y := by
  have hapart := h.apart hy hne
  have hbehind : Bound 0 (pre ++ ⟨len, u⟩ :: post) (extent pre + len) := by
    simp [bound_append, bound_self]
  have hnext := h.bound_apart hy hbehind
  have hlen := h.header_le hy
  have hdr : (s.hdr (extent pre)).next = extent pre + len := by rw [h.hdr_start]; rfl
  dsimp only at hapart
  intro x hx
  exact splitBlock_mem (by omega) (by omega) (by omega)

/-- The block that is taken was free. -/
theorem Blocks.take_kept (h : Blocks s (pre ++ ⟨len, false⟩ :: post))
    (hy : y ∈ startsOf true 0 (pre ++ ⟨len, false⟩ :: post)) (hsize : 4 ∣ size)
    (hroom : 12 + size ≤ len) (htake : takeBlock s size (extent pre) = some t) : Kept s t y := by
  have hne := h.chain.used_ne_free hy
  obtain ⟨len', post', -, hcut⟩ := h.cut hsize hroom
  have hcutKept : Kept s (cutBlock s size (extent pre)) y := by
    rcases h.chain.cutBlock_cases hroom with ⟨hsplit, heq⟩ | heq
    · rw [heq]
      exact h.chain.split_kept hy hne hsplit
    · rw [heq]
      exact .refl s y
  have hy' : y ∈ startsOf true 0 (pre ++ ⟨len', false⟩ :: post') := by
    rw [startsOf_append, startsOf_true_mk_false] at hy ⊢
    rw [Nat.zero_add, hcut.starts]
    rwa [Nat.zero_add] at hy
  have hmark := hcut.chain.mark_kept hy' hne 1
  unfold takeBlock at htake
  dsimp only at htake
  split at htake
  · obtain ⟨l, -, rfl⟩ := Option.map_eq_some_iff.mp htake
    exact hcutKept.trans hmark
  · obtain rfl := Option.some.inj htake
    exact hcutKept.trans hmark

theorem Blocks.malloc_kept {p : Nat} (h : Blocks s bs) (hy : y ∈ startsOf true 0 bs)
    (hcall : rtMalloc s size = some (t, p)) : Kept s t y := by
  rcases h.malloc_parts hcall with ⟨-, rfl⟩ | ⟨n, pre, len, post, -, -, hsize, rfl, hlen, htake, -⟩
  · exact .refl t y
  · exact h.take_kept hy hsize hlen htake

theorem Blocks.free_kept (h : Blocks s bs) (hz : z ∈ startsOf true 0 bs)
    (hy : y ∈ startsOf true 0 bs) (hne : y ≠ z)
    (hfree : rtFree s (s.heapPtr + z + sizeofStructMem) = some t) : Kept s t y := by
  obtain ⟨pre, ⟨len, u⟩, post, rfl, rfl, rfl⟩ := mem_startsOf hz
  rw [Nat.zero_add] at hne hfree
  rw [h.chain.rtFree_eq (h.room _ (List.mem_append_right _ List.mem_cons_self) rfl)] at hfree
  have hmark := h.chain.mark_kept hy hne 0
  have hy' : y ∈ startsOf true 0 (pre ++ ⟨len, false⟩ :: post) := by
    rw [startsOf_append, startsOf_true_mk_false]
    rw [startsOf_append, startsOf_mk_self, List.mem_append, List.mem_cons] at hy
    rw [List.mem_append]
    exact hy.imp_right fun hor => hor.resolve_left (by rwa [Nat.zero_add])
  exact Kept.trans hmark (h.toCounted.unused.chain.plugHoles_kept hy' hfree)

/-- Of a block that is cut in place, the data that are left stay, too. -/
theorem Blocks.shrink_kept (h : Blocks s (pre ++ ⟨len, true⟩ :: post)) (hn : 4 ∣ n)
    (hroom : n + 24 < len - 12) (hshrink : SmallMem.shrink s (extent pre) n = some t) :
    (∀ y ∈ startsOf true 0 (pre ++ ⟨len, true⟩ :: post), y ≠ extent pre → Kept s t y) ∧
      (∀ x, extent pre + 12 ≤ x → x < extent pre + 12 + n → t.mem x = s.mem x) ∧
      (t.hdr (extent pre)).next = extent pre + (12 + n) := by
  have hstop : extent pre + (12 + n) + (len - (12 + n)) = extent pre + len := by omega
  unfold SmallMem.shrink at hshrink
  generalize hs₁ : ({ s with usedMem := usub s.usedMem (s.dataSize (extent pre) - n) } : Heap) =
    s₁ at hshrink
  have hmem : s₁.mem = s.mem := by rw [← hs₁]
  have hc₁ : Chain s₁ (pre ++ ⟨len, true⟩ :: post) :=
    h.chain.of_mem hmem (hs₁ ▸ rfl) (hs₁ ▸ rfl)
  have hdr : (s₁.hdr (extent pre)).next = extent pre + len := by rw [hc₁.hdr_start]; rfl
  have hsplit := hc₁.split hn (by omega)
  have hfirst : ((splitBlock s₁ (extent pre) n).hdr (extent pre)).next = extent pre + (12 + n) := by
    rw [hsplit.hdr_start]
    rfl
  have hsplit' : Chain (splitBlock s₁ (extent pre) n)
      ((pre ++ [⟨12 + n, true⟩]) ++ ⟨len - (12 + n), false⟩ :: post) := by
    rw [List.append_assoc]
    exact hsplit
  have hplug : SmallMem.plugHoles (splitBlock s₁ (extent pre) n)
      (extent (pre ++ [⟨12 + n, true⟩])) = some t := by
    simpa [sizeofStructMem, Nat.add_assoc] using hshrink
  have hsame : startsOf true 0 ((pre ++ [⟨12 + n, true⟩]) ++ ⟨len - (12 + n), false⟩ :: post) =
      startsOf true 0 (pre ++ ⟨len, true⟩ :: post) := by
    simp [startsOf, hstop]
  have hkept : ∀ y ∈ startsOf true 0 (pre ++ ⟨len, true⟩ :: post),
      Kept (splitBlock s₁ (extent pre) n) t y := fun y hy =>
    hsplit'.plugHoles_kept (hsame.symm ▸ hy) hplug
  have hown : extent pre ∈ startsOf true 0 (pre ++ ⟨len, true⟩ :: post) := by simp
  refine ⟨fun y hy hne => ?_, fun x hx hx' => ?_, ?_⟩
  · have hcut : Kept s₁ (splitBlock s₁ (extent pre) n) y := hc₁.split_kept hy hne (by omega)
    have hstart : Kept s s₁ y := fun x _ => congrFun hmem x
    exact (hstart.trans hcut).trans (hkept y hy)
  · rw [hkept _ hown x (.inr ⟨hx, by omega⟩), splitBlock_mem (by omega) (by omega) (by omega), hmem]
  · rw [(hkept _ hown).next, hfirst]

/-- The new block of a move holds the data of the old one. -/
theorem Blocks.move_kept {p : Nat} (h : Blocks s bs) (hz : z ∈ startsOf true 0 bs)
    (hn : n + 3 < 2 ^ 32)
    (hcall : SmallMem.move s (s.heapPtr + z + sizeofStructMem) n = some (t, p)) :
    p = 0 ∧ t = s ∨ SamePlace s t ∧ (∀ y ∈ startsOf true 0 bs, y ≠ z → Kept s t y) ∧
      ∃ w bs', Chain t bs' ∧ w ∈ startsOf true 0 bs' ∧ p = s.heapPtr + w + sizeofStructMem ∧
        n ≤ t.dataSize w ∧ ∀ i, 4 * i < min (s.dataSize z) n →
          t.mem (w + sizeofStructMem + 4 * i) = s.mem (z + sizeofStructMem + 4 * i) := by
  rcases h.move_parts hn hcall with hnone | ⟨u, m, pre, len, post, k, hmalloc, hu, hplace, rfl,
    hperm, hk, hlen, hm, hfree⟩
  · exact .inl hnone
  · rw [h.chain.memOf_start hz] at hk hm
    rw [← hplace.1] at hfree
    have hcopied : Blocks { u with mem := m } (pre ++ ⟨len, true⟩ :: post) :=
      hu.data fun y hy => hm ▸ copy_outside (by omega)
    have hnew : extent pre ∈ startsOf true 0 (pre ++ ⟨len, true⟩ :: post) := by simp
    have hold : ∀ y ∈ startsOf true 0 bs, y ∈ startsOf true 0 (pre ++ ⟨len, true⟩ :: post) :=
      fun y hy => hperm.mem_iff.mpr (List.mem_cons_of_mem _ hy)
    have hnodup : (extent pre :: startsOf true 0 bs).Nodup := by
      rw [← hperm.nodup_iff]
      exact (startsOf_ordered hu.chain.pos true 0).imp fun hlt => Nat.ne_of_lt hlt
    have hne : ∀ y ∈ startsOf true 0 bs, y ≠ extent pre := fun y hy heq =>
      (List.nodup_cons.mp hnodup).1 (heq ▸ hy)
    -- the old block is freed, and all the others stay
    obtain ⟨t', bs', hfree', hblocks, hplace', hperm'⟩ := hcopied.free (hold z hz)
    obtain rfl := Option.some.inj (hfree'.symm.trans hfree)
    have hfreed : ∀ y ∈ startsOf true 0 (pre ++ ⟨len, true⟩ :: post), y ≠ z →
        Kept { u with mem := m } t' y := fun y hy hyz => hcopied.free_kept (hold z hz) hy hyz hfree'
    refine .inr ⟨⟨hplace'.1.trans hplace.1, hplace'.2.trans hplace.2⟩, fun y hy hyz => ?_,
      extent pre, bs', hblocks.chain, ?_, rfl, ?_, fun i hi => ?_⟩
    · have hcopy : Kept u { u with mem := m } y := by
        refine hu.chain.kept_of_block (hold y hy) (hne y hy) fun x hx => hm ▸ copy_outside ?_
        dsimp only at hx
        omega
      exact ((h.malloc_kept hy hmalloc).trans hcopy).trans (hfreed y (hold y hy) hyz)
    · exact (List.mem_cons.mp (hperm'.mem_iff.mp hnew)).resolve_left (hne z hz).symm
    · rw [(hfreed _ hnew (hne z hz).symm).dataSize, hcopied.chain.dataSize]
      exact Nat.le_sub_of_add_le' hlen
    · have hi' : i < n := by omega
      have hk' : 4 * i < k := hk ▸ hi
      have hlast : (Heap.hdr { u with mem := m } (extent pre)).next = extent pre + len := by
        rw [hcopied.chain.hdr_start]
        rfl
      have hdata := h.chain.data_next hz
      rw [hfreed _ hnew (hne z hz).symm _ (.inr ?_)]
      · calc m (extent pre + 12 + 4 * i) = u.mem (z + 12 + 4 * i) := hm ▸ copy_inside hk'
          _ = s.mem (z + 12 + 4 * i) := h.malloc_kept hz hmalloc _ (.inr (by omega))
      · rw [hlast]
        simp only [sizeofStructMem]
        omega

theorem rtAlign_wraps (h : size < 2 ^ 32) (h' : 2 ^ 32 ≤ size + 3) :
    rtAlign size rtAlignSize = 0 := by
  simp only [rtAlign, rtAlignDown, rtAlignSize, u32]
  omega

end

/-! ## Runs -/

/-- The word at an index of the data behind a pointer. -/
def dataWord (s : Heap) (p i : Nat) : Nat := s.mem (s.memOf p + sizeofStructMem + 4 * i)

/-- What a caller of `rt_realloc` finds: the words that hold the first bytes of the block, up to
the smaller one of its sizes, the data of all other blocks, and the whole heap if it is refused. -/
structure Preserved (s : HeapRun) (rmem newsize : Nat) (t : Heap) (p : Nat) : Prop where
  contents : p ≠ 0 → ∀ i, 4 * i < min (dataOf s.heap rmem).len newsize →
    dataWord t p i = dataWord s.heap rmem i
  others : ∀ q ∈ s.live, q ≠ rmem → dataOf t q = dataOf s.heap q ∧
    ∀ i, 4 * i < (dataOf s.heap q).len → dataWord t q i = dataWord s.heap q i
  refused : p = 0 → newsize ≠ 0 → t = s.heap

def Preserves (s : HeapRun) (rmem newsize : Nat) : Prop :=
  ∀ t p, rtRealloc s.heap rmem newsize = some (t, p) → Preserved s rmem newsize t p

section
variable {s : HeapRun} {t : Heap} {bs : List Block} {rmem newsize n p z : Nat}

/-- The blocks that are kept are those of the other pointers. -/
theorem Owned.others (h : Owned s bs) (hplace : SamePlace s.heap t)
    (hkept : ∀ y ∈ startsOf true 0 bs, y ≠ z → Kept s.heap t y) (q : Nat) (hq : q ∈ s.live)
    (hne : q ≠ s.heap.heapPtr + z + sizeofStructMem) : dataOf t q = dataOf s.heap q ∧
      ∀ i, 4 * i < (dataOf s.heap q).len → dataWord t q i = dataWord s.heap q i := by
  obtain ⟨y, hy, rfl⟩ := h.mem_live hq
  have hyz : y ≠ z := fun heq => hne (by rw [heq])
  have hk := hkept y hy hyz
  have hdata := h.blocks.chain.data_next hy
  have hmemOf := h.blocks.chain.memOf_start hy
  have hmemOf' : t.memOf (s.heap.heapPtr + y + sizeofStructMem) = y := by
    unfold Heap.memOf at hmemOf ⊢
    rw [hplace.1]
    exact hmemOf
  unfold dataOf dataWord
  rw [hmemOf, hmemOf', hk.dataSize]
  refine ⟨rfl, fun i hi => hk _ (.inr ?_)⟩
  dsimp only at hi
  simp only [sizeofStructMem]
  omega

/-- A call that is refused, or gives the same block back, changes nothing. -/
theorem preserved_same (hp : p = 0 ∨ p = rmem) : Preserved s rmem newsize s.heap p :=
  ⟨fun hne i _ => by rw [hp.resolve_left hne], fun _ _ _ => ⟨rfl, fun _ _ => rfl⟩, fun _ _ => rfl⟩

theorem Owned.resize_preserves (h : Owned s bs) (hmem : rmem ∈ s.live) (hn : 4 ∣ n)
    (hpos : 0 < n) (hfit : n + 24 < 2 ^ 32) (hle : newsize ≤ n)
    (hcall : SmallMem.resize s.heap rmem n = some (t, p)) : Preserved s rmem newsize t p := by
  obtain ⟨x, hx, rfl⟩ := h.mem_live hmem
  have hx' := hx
  have hmemOf := h.blocks.chain.memOf_start hx
  obtain ⟨pre, ⟨len, u⟩, post, rfl, rfl, rfl⟩ := mem_startsOf hx
  have hc := h.blocks.chain
  have hneed : u32 (n + sizeofStructMem + minSize) = n + 24 := u32_of_lt hfit
  have hsize := hc.dataSize
  unfold SmallMem.resize at hcall
  rw [Nat.zero_add] at hcall hmemOf hx' ⊢
  rw [hmemOf, hneed] at hcall
  split at hcall
  · obtain ⟨rfl, rfl⟩ := Prod.mk.inj (Option.some.inj hcall)
    exact preserved_same (.inr rfl)
  split at hcall
  · rename_i hlt
    obtain ⟨u, hshrink, heq⟩ := Option.map_eq_some_iff.mp hcall
    obtain ⟨rfl, rfl⟩ := Prod.mk.inj heq
    rw [hsize] at hlt
    obtain ⟨hothers, hown, -⟩ := h.blocks.shrink_kept hn hlt hshrink
    obtain ⟨t', bs', ht', -, hplace, -⟩ := h.blocks.shrink hn hpos hlt
    obtain rfl := Option.some.inj (ht'.symm.trans hshrink)
    refine ⟨fun _ i hi => ?_, h.others hplace hothers, fun hp => absurd hp (Chain.ptr_ne_zero _ _)⟩
    have hmemOf' : t'.memOf (s.heap.heapPtr + extent pre + sizeofStructMem) = extent pre := by
      unfold Heap.memOf at hmemOf ⊢
      rw [hplace.1]
      exact hmemOf
    unfold dataWord
    rw [hmemOf, hmemOf']
    refine hown _ ?_ ?_
    · simp only [sizeofStructMem]
      omega
    · simp only [sizeofStructMem]
      omega
  · rcases h.blocks.move_kept hx' (by omega) hcall with ⟨rfl, rfl⟩ | ⟨hplace, hothers, w, bs',
      hchain, hw, rfl, -, hcontents⟩
    · exact preserved_same (.inl rfl)
    · refine ⟨fun _ i hi => ?_, h.others hplace hothers,
        fun hp => absurd hp (Chain.ptr_ne_zero _ _)⟩
      have hnew := hchain.memOf_start hw
      rw [hplace.1] at hnew
      unfold dataWord
      rw [hmemOf, hnew]
      unfold dataOf at hi
      rw [hmemOf] at hi
      exact hcontents i (Nat.lt_of_lt_of_le hi (min_le_min_left _ hle))

/-- A live block is kept exactly if `RT_ALIGN` does not turn the size into zero. -/
theorem Owned.preserves_iff (h : Owned s bs) (hmem : rmem ∈ s.live) (hsize : newsize < 2 ^ 32) :
    Preserves s rmem newsize ↔ newsize + (rtAlignSize - 1) < 2 ^ 32 := by
  obtain ⟨x, hx, hptr⟩ := h.mem_live hmem
  obtain ⟨t', bs', hfree, hblocks, hplace, hperm⟩ := h.blocks.free hx
  rw [← hptr] at hfree
  constructor
  · intro hpreserves
    by_contra hwraps
    simp only [rtAlignSize] at hwraps
    have hzero := rtAlign_wraps hsize (by omega)
    have hcall : rtRealloc s.heap rmem newsize = some (t', 0) := by
      unfold rtRealloc
      rw [hzero, if_neg (Nat.not_lt_zero _), if_pos rfl, hfree, Option.map_some]
    -- one used block is gone
    have hsame := (hpreserves t' 0 hcall).refused rfl (by omega)
    rw [hsame] at hblocks
    rw [hblocks.chain.unique h.blocks.chain] at hperm
    exact absurd hperm.length_eq (Nat.ne_of_lt (Nat.lt_succ_self _))
  · intro hfits t p hcall
    have hle := (rtAlign_four hfits).1
    unfold rtRealloc at hcall
    by_cases hbig : rtAlign newsize rtAlignSize > s.heap.memSizeAligned
    · rw [if_pos hbig] at hcall
      obtain ⟨rfl, rfl⟩ := Prod.mk.inj (Option.some.inj hcall)
      exact preserved_same (.inl rfl)
    rw [if_neg hbig] at hcall
    by_cases hzero : rtAlign newsize rtAlignSize = 0
    · rw [if_pos hzero, hfree] at hcall
      obtain ⟨rfl, rfl⟩ := Prod.mk.inj (Option.some.inj hcall)
      have hnone : newsize = 0 := by omega
      refine ⟨fun hp => absurd rfl hp, fun q hq hne => ?_, fun _ hne => absurd hnone hne⟩
      refine h.others hplace (fun y hy hyx => ?_) q hq (hptr ▸ hne)
      exact h.blocks.free_kept hx hy hyx (hptr ▸ hfree)
    have hnull : rmem ≠ 0 := fun hnull => h.zero_notMem (hnull ▸ hmem)
    rw [if_neg hzero, if_neg hnull] at hcall
    obtain ⟨pre, len, post, rfl, hptr'⟩ := h.block hmem
    have hrange := h.blocks.chain.in_range
      (h.blocks.room _ (List.mem_append_right _ List.mem_cons_self) rfl)
    rw [← hptr'] at hrange
    rw [if_neg hrange] at hcall
    have hfits' := h.blocks.chain.fits
    simp only [Heap.heapEnd, sizeofStructMem] at hfits'
    exact h.resize_preserves hmem (dvd_rtAlign newsize rtAlignSize) (Nat.pos_of_ne_zero hzero)
      (by omega) hle hcall

end

/-- In a run of good steps `rt_realloc` keeps a live block, the other ones and the heap of a call
that is refused exactly if its size does not wrap. -/
theorem preserved_throughout_iff (mem : Mem) (beginAddr endAddr : Nat) (hend : endAddr < 2 ^ 32)
    (s : HeapRun) (hstart : start mem beginAddr endAddr = some s) (es : List Event)
    (hgood : Along step Good s es) : Throughout step (fun s => ∀ rmem ∈ s.live, ∀ newsize < 2 ^ 32,
      (Preserves s rmem newsize ↔ newsize + (rtAlignSize - 1) < 2 ^ 32)) s es :=
  throughout_of_along (fun _ ⟨_, h⟩ _ hmem _ hsize => h.preserves_iff hmem hsize)
    (fun _ _ _ h hgood hstep => Owned.step h hgood hstep) (start_owned hend hstart) hgood

theorem preserved_after_malloc : ∃ s, start (fun _ => 0) 0 200 = some s ∧
    Throughout step (fun s => ∀ rmem ∈ s.live, ∀ newsize < 2 ^ 32, (Preserves s rmem newsize ↔
      newsize + (rtAlignSize - 1) < 2 ^ 32)) s [.malloc 60, .malloc 12, .realloc 12 20] := by
  obtain ⟨s, hs⟩ : ∃ s, start (fun _ => 0) 0 200 = some s := ⟨_, rfl⟩
  exact ⟨s, hs, preserved_throughout_iff _ 0 200 (by decide) s hs _
    fun _ _ => ⟨trivial, fun _ _ => ⟨trivial, fun _ _ => ⟨fun _ => by decide, trivial⟩⟩⟩⟩

/-- A block that is to get all of the address space is freed. -/
theorem all_bytes_not_preserved : ∃ s t, start (fun _ => 0) 0 200 = some s ∧
    step s (.malloc 12) = some t ∧ 12 ∈ t.live ∧ ¬ Preserves t 12 0xFFFFFFFF := by
  obtain ⟨s, hs⟩ : ∃ s, start (fun _ => 0) 0 200 = some s := ⟨_, rfl⟩
  have hrun : (start (fun _ => 0) 0 200).bind (fun s => (step s (.malloc 12)).map (·.live)) =
      some [12] := by decide +kernel
  rw [hs] at hrun
  obtain ⟨t, hstep, hlive⟩ := Option.map_eq_some_iff.mp hrun
  have hmem : 12 ∈ t.live := by rw [hlive]; exact List.mem_cons_self
  have hgood : Good s (.malloc 12) := trivial
  obtain ⟨bs, howned⟩ := Owned.step (start_owned (by decide) hs) hgood hstep
  refine ⟨s, t, hs, hstep, hmem, fun hpreserves => ?_⟩
  exact absurd ((howned.preserves_iff hmem (by decide)).mp hpreserves) (by decide)

end ControlRTT.Kernel.SmallMem

import ControlRTT.Kernel.SmallMemBlocks

/-! # Runs of the small-memory heap

`rt_malloc` and `rt_realloc` keep the blocks, and so do the other calls. The exceptions
are sizes above `2 ^ 32 - 4`: `RT_ALIGN` turns them into zero, and `rt_realloc` then frees
the block, and `rt_calloc` clears far more than the block that `rt_malloc` has found. -/
namespace ControlRTT.Kernel.SmallMem
open ControlRTT.Kernel.RtDef ControlRTT.Lib.CInt ControlRTT.Lib.Extents ControlRTT.Lib.Runs
  ControlRTT.Lib.Tiling ControlRTT.Lib.WordMem

section
variable {s s' : Heap} {pre post bs : List Block} {len size fuel x p ptr : Nat}

/-! ## Allocating -/

theorem Chain.hdr_end (h : Chain s bs) :
    (s.hdr s.heapEnd).used = 1 ∧ (s.hdr s.heapEnd).next = s.heapEnd := by
  obtain ⟨p, hnode⟩ := h.sentinel
  have := readHdr_of_node hnode
  unfold Heap.hdr
  rw [this]
  exact ⟨rfl, rfl⟩

theorem Chain.unique (h : Chain s bs) (h' : Chain s bs') : bs = bs' :=
  h.tiled.unique h'.tiled (by decide) (h.reaches.trans h'.reaches.symm)

theorem Chain.pos (h : Chain s bs) : ∀ b ∈ bs, 0 < b.len := by
  intro b hb
  obtain ⟨pre, post, rfl⟩ := List.append_of_mem hb
  have hlen := h.tiled.header.2
  simp only [sizeofStructMem] at hlen
  omega

/-- The links lead from bound to bound. -/
theorem Chain.bound_next (h : Chain s bs) (hb : Bound 0 bs ptr) :
    Bound 0 bs (s.hdr ptr).next := by
  rcases hb.cases with hptr | ⟨pre, b, post, rfl, hptr⟩
  · obtain rfl : ptr = s.heapEnd := by rw [hptr, Nat.zero_add, h.reaches]
    rw [h.hdr_end.2]
    exact hb
  · rw [hptr, Nat.zero_add, h.hdr_start]
    simp [header, bound_append, bound_self]

/-- The search finds a free block that is long enough. -/
theorem Chain.findFit (h : Chain s bs) (hb : Bound 0 bs ptr)
    (hfind : SmallMem.findFit s size fuel ptr = some (some x)) :
    ∃ pre len post, bs = pre ++ ⟨len, false⟩ :: post ∧ x = extent pre ∧ 12 + size ≤ len := by
  induction fuel generalizing ptr with
  | zero => cases hfind
  | succ fuel ih =>
    unfold SmallMem.findFit at hfind
    split at hfind
    · split at hfind
      · rename_i hfit
        obtain rfl := Option.some.inj (Option.some.inj hfind)
        obtain ⟨hfree, hfit⟩ := hfit
        rcases hb.cases with hptr | ⟨pre, ⟨len, u⟩, post, rfl, hptr⟩
        · rw [hptr, Nat.zero_add, h.reaches, h.hdr_end.1] at hfree
          cases hfree
        · rw [Nat.zero_add] at hptr
          have hend := h.end_le
          have hfits := h.fits
          have hlen := h.tiled.header.2
          rw [hptr, h.hdr_start] at hfree hfit
          obtain rfl : u = false := by cases u <;> simp [header] at hfree ⊢
          simp only [header, sizeofStructMem] at hfit hfits hlen hend
          rw [u32_of_lt (by omega), usub_of_le (by omega) (by omega)] at hfit
          exact ⟨pre, len, post, rfl, hptr, by omega⟩
      · exact ih (h.bound_next hb) hfind
    · cases Option.some.inj hfind

theorem Chain.nextFree (h : Chain s bs) (hb : Bound 0 bs ptr)
    (hnext : SmallMem.nextFree s fuel ptr = some x) : Bound 0 bs x := by
  induction fuel generalizing ptr with
  | zero => cases hnext
  | succ fuel ih =>
    unfold SmallMem.nextFree at hnext
    split at hnext
    · exact ih (h.bound_next hb) hnext
    · exact Option.some.inj hnext ▸ hb

theorem addUsed_usedMem {n : Nat} (h : s.usedMem + n < 2 ^ 32) :
    (s.addUsed n).usedMem = s.usedMem + n := u32_of_lt h

theorem addUsed_max (s : Heap) (n : Nat) : (s.addUsed n).usedMem ≤ (s.addUsed n).maxMem := by
  unfold Heap.addUsed
  dsimp only
  split <;> omega

/-- What `rt_malloc` takes off a free block; the counters are ahead of the mark. -/
structure Cut (s : Heap) (pre : List Block) (len : Nat) (post : List Block) (s' : Heap)
    (len' : Nat) (post' : List Block) : Prop where
  chain : Chain s' (pre ++ ⟨len', false⟩ :: post')
  place : SamePlace s s'
  lfree : s'.lfree = s.lfree
  bound : ∀ x, Bound 0 (pre ++ ⟨len, false⟩ :: post) x → Bound 0 (pre ++ ⟨len', false⟩ :: post') x
  spaced : Spaced post'
  room : ∀ b ∈ post', b.used → b ∈ post
  starts : startsOf true (extent pre + len') post' = startsOf true (extent pre + len) post
  usedLens : total usedLen post' = total usedLen post
  usedMem : s'.usedMem = s.usedMem + len'
  max : s'.usedMem ≤ s'.maxMem

/-- A block is split if the rest of it has room for another one. -/
theorem Chain.cutBlock_cases (h : Chain s (pre ++ ⟨len, false⟩ :: post)) (hroom : 12 + size ≤ len) :
    size + 24 ≤ len ∧ cutBlock s size (extent pre) =
        (splitBlock s (extent pre) size).addUsed (size + sizeofStructMem) ∨
      cutBlock s size (extent pre) = s.addUsed len := by
  have hend := h.reaches
  have hfits := h.fits
  simp only [extent_append, extent_cons, sizeofStructMem] at hend hfits
  have hrest : usub (extent pre + len) (u32 (extent pre + sizeofStructMem)) = len - 12 := by
    simp only [sizeofStructMem]
    rw [u32_of_lt (by omega), usub_of_le (by omega) (by omega)]
    omega
  have hneed : u32 (size + sizeofStructMem + minSize) = size + 12 + 12 := u32_of_lt (by
    simp only [sizeofStructMem, minSize]
    omega)
  have hwhole : usub (extent pre + len) (extent pre) = len := h.usub_len
  unfold cutBlock
  rw [h.hdr_start]
  dsimp only [header]
  rw [hrest, hneed, hwhole]
  split
  · exact .inl ⟨by omega, rfl⟩
  · exact .inr rfl

theorem Blocks.cut (h : Blocks s (pre ++ ⟨len, false⟩ :: post)) (hsize : 4 ∣ size)
    (hroom : 12 + size ≤ len) : ∃ len' post', 12 + size ≤ len' ∧
      Cut s pre len post (cutBlock s size (extent pre)) len' post' := by
  have hc := h.chain
  have hend := hc.reaches
  have hfits := hc.fits
  have hused := h.used
  have hpost := (total_usedLen_le post)
  have hpre := (total_usedLen_le pre)
  obtain ⟨-, hspaced, -, hhead⟩ := spaced_split.mp h.spaced
  simp only [extent_append, extent_cons, total_append, total_cons, usedLen, Bool.false_eq_true,
    if_false, sizeofStructMem] at hend hfits hused
  rcases hc.cutBlock_cases hroom with ⟨hsplit, hcut⟩ | hcut
  · rw [hcut]
    have hstop : extent pre + (12 + size) + (len - (12 + size)) = extent pre + len := by omega
    refine ⟨12 + size, _, Nat.le_refl _, (hc.split hsize (by omega)).of_mem rfl rfl rfl,
      ⟨rfl, rfl⟩, rfl, fun x hx => ?_, ?_, fun b hb hu => ?_, ?_, ?_, ?_, addUsed_max _ _⟩
    · simp only [bound_append, bound_cons, Nat.zero_add, hstop] at hx ⊢
      rcases hx with hx | hx | hx
      · exact .inl hx
      · exact .inr (.inl hx)
      · exact .inr (.inr (.inr hx))
    · exact List.isChain_cons.mpr ⟨hhead, hspaced⟩
    · rcases List.mem_cons.mp hb with rfl | hb
      · cases hu
      · exact hb
    · simp [startsOf, hstop]
    · simp [usedLen]
    · have hfit : s.usedMem + (size + 12) < 2 ^ 32 := by omega
      rw [Nat.add_comm 12 size]
      exact addUsed_usedMem hfit
  · rw [hcut]
    refine ⟨len, post, hroom, hc.of_mem rfl rfl rfl, ⟨rfl, rfl⟩, rfl, fun x hx => hx, hspaced,
      fun b hb _ => hb, rfl, rfl, ?_, addUsed_max _ _⟩
    exact addUsed_usedMem (by omega)

theorem Blocks.take (h : Blocks s (pre ++ ⟨len, false⟩ :: post)) (hsize : 4 ∣ size)
    (hmin : 0 < size) (hroom : 12 + size ≤ len)
    (htake : takeBlock s size (extent pre) = some s') :
    ∃ len' post', 12 + size ≤ len' ∧ Blocks s' (pre ++ ⟨len', true⟩ :: post') ∧ SamePlace s s' ∧
      startsOf true (extent pre + len') post' = startsOf true (extent pre + len) post := by
  obtain ⟨len', post', hlen', hcut⟩ := h.cut hsize hroom
  obtain ⟨hspaced, -, -, -⟩ := spaced_split.mp h.spaced
  have hmarked := hcut.chain.mark true
  have hbound := hcut.bound s.lfree h.lfree
  have hused := h.used
  have hcount := hcut.usedMem
  have hmax := hcut.max
  unfold takeBlock at htake
  generalize cutBlock s size (extent pre) = s₁ at htake hcut hmarked hcount hmax
  -- the mark, and the walk to the next free block if `lfree` was taken
  obtain ⟨l, hl, rfl⟩ : ∃ l, Bound 0 (pre ++ ⟨len', true⟩ :: post') l ∧ s' = { s₁ with
      mem := setMagic (setUsed s₁.mem (extent pre) 1) (extent pre) heapMagic, lfree := l } := by
    have hl₁ : Bound 0 (pre ++ ⟨len', true⟩ :: post') s₁.lfree := by
      rw [hcut.lfree]
      simpa only [bound_append, bound_cons] using hbound
    dsimp only at htake
    split at htake
    · obtain ⟨l, hnext, rfl⟩ := Option.map_eq_some_iff.mp htake
      exact ⟨l, hmarked.nextFree hl₁ hnext, rfl⟩
    · exact ⟨s₁.lfree, hl₁, (Option.some.inj htake).symm⟩
  refine ⟨len', post', hlen', ⟨⟨hmarked.of_mem rfl rfl rfl, hl, fun b hb hu => ?_, ?_, hmax⟩, ?_⟩,
    hcut.place, hcut.starts⟩
  · simp only [List.mem_append, List.mem_cons] at hb
    rcases hb with hb | rfl | hb
    · exact h.room b (List.mem_append_left _ hb) hu
    · simp only [sizeofStructMem]
      omega
    · exact h.room b (List.mem_append_right _ (List.mem_cons_of_mem _ (hcut.room b hb hu))) hu
  · have hsame := hcut.usedLens
    change s₁.usedMem = _
    rw [hcount, hused]
    simp only [total_append, total_cons, usedLen, if_true, Bool.false_eq_true, if_false, hsame]
    omega
  · exact spaced_split.mpr ⟨hspaced, hcut.spaced, fun _ _ => .inr rfl, fun _ _ => .inl rfl⟩

/-- What a call that asks for `n` bytes of data gives: zero, and nothing has changed, or a
pointer to one more used block that has room for them. -/
def Gives (s : Heap) (bs : List Block) (n : Nat) (s' : Heap) (p : Nat) : Prop :=
  p = 0 ∧ s' = s ∨ ∃ pre len post, Blocks s' (pre ++ ⟨len, true⟩ :: post) ∧ SamePlace s s' ∧
    p = s.heapPtr + extent pre + sizeofStructMem ∧ 12 + n ≤ len ∧
    (startsOf true 0 (pre ++ ⟨len, true⟩ :: post)).Perm (extent pre :: startsOf true 0 bs)

/-- A request is refused, and nothing has changed, or it takes a free block. -/
theorem Blocks.malloc_parts (h : Blocks s bs) (hcall : rtMalloc s size = some (s', p)) :
    p = 0 ∧ s' = s ∨ ∃ n pre len post, rtAlign size rtAlignSize ≤ n ∧ 0 < n ∧ 4 ∣ n ∧
      bs = pre ++ ⟨len, false⟩ :: post ∧ 12 + n ≤ len ∧ takeBlock s n (extent pre) = some s' ∧
      p = s'.heapPtr + extent pre + sizeofStructMem := by
  have hnone (heq : some (s, 0) = some (s', p)) : p = 0 ∧ s' = s :=
    ⟨(Prod.mk.inj (Option.some.inj heq)).2.symm, (Prod.mk.inj (Option.some.inj heq)).1.symm⟩
  have hdvd : 4 ∣ rtAlign size rtAlignSize := dvd_rtAlign size rtAlignSize
  unfold rtMalloc at hcall
  dsimp only at hcall
  generalize rtAlign size rtAlignSize = n at hcall hdvd ⊢
  split at hcall
  · exact .inl (hnone hcall)
  split at hcall
  · exact .inl (hnone hcall)
  obtain ⟨_ | ptr, hfind, hcall⟩ := Option.bind_eq_some_iff.mp hcall
  · exact .inl (hnone hcall)
  obtain ⟨pre, len, post, rfl, rfl, hlen⟩ := h.chain.findFit h.lfree hfind
  obtain ⟨s₁, htake, hcall⟩ := Option.bind_eq_some_iff.mp hcall
  obtain ⟨-, hcall⟩ := Option.ite_none_right_eq_some.mp hcall
  obtain ⟨rfl, rfl⟩ := Prod.mk.inj (Option.some.inj hcall)
  refine .inr ⟨_, pre, len, post, ?_, ?_, ?_, rfl, hlen, htake, rfl⟩
  all_goals
    unfold minSize
    split <;> omega

theorem Blocks.malloc (h : Blocks s bs) (hcall : rtMalloc s size = some (s', p)) :
    Gives s bs (rtAlign size rtAlignSize) s' p := by
  rcases h.malloc_parts hcall with
    hnone | ⟨n, pre, len, post, hn, hmin, hsize, rfl, hlen, htake, rfl⟩
  · exact .inl hnone
  · obtain ⟨len', post', hlen', hblocks, hplace, hstarts⟩ := h.take hsize hmin hlen htake
    refine .inr ⟨pre, len', post', hblocks, hplace, by rw [hplace.1], by omega, ?_⟩
    simp only [startsOf_append, startsOf, if_true, Bool.false_eq_true, if_false, Nat.zero_add,
      hstarts]
    exact List.perm_middle

/-! ## Resizing -/

theorem Blocks.data {m : Mem} (h : Blocks s (pre ++ ⟨len, true⟩ :: post))
    (hdata : ∀ x, x < extent pre + 12 ∨ extent pre + len ≤ x → m x = s.mem x) :
    Blocks { s with mem := m } (pre ++ ⟨len, true⟩ :: post) :=
  ⟨⟨h.chain.data hdata, h.lfree, h.room, h.used, h.max⟩, h.spaced⟩

theorem Chain.dataSize {b : Block} (h : Chain s (pre ++ b :: post)) :
    s.dataSize (extent pre) = b.len - 12 := by
  have hend := h.end_le
  have hfits := h.fits
  have hlen := h.tiled.header.2
  unfold Heap.dataSize
  rw [h.hdr_start]
  dsimp only [header]
  rw [h.usub_len, usub_of_le hlen (by omega)]
  rfl

theorem Blocks.shrink {n : Nat} (h : Blocks s (pre ++ ⟨len, true⟩ :: post)) (hn : 4 ∣ n)
    (hpos : 0 < n) (hroom : n + 24 < len - 12) :
    ∃ s' bs', SmallMem.shrink s (extent pre) n = some s' ∧ Blocks s' bs' ∧ SamePlace s s' ∧
      startsOf true 0 bs' = startsOf true 0 (pre ++ ⟨len, true⟩ :: post) := by
  obtain ⟨hpre, hpost, hlast, -⟩ := spaced_split.mp h.spaced
  have hused := h.used
  have hmax := h.max
  have hl := h.lfree
  have hend := h.chain.reaches
  have hfits := h.chain.fits
  have htotal := total_usedLen_le (pre ++ ⟨len, true⟩ :: post)
  have hstop : extent pre + (12 + n) + (len - (12 + n)) = extent pre + len := by omega
  unfold SmallMem.shrink
  rw [h.chain.dataSize, Nat.add_assoc]
  dsimp only
  generalize hs₁ : ({ s with usedMem := usub s.usedMem (len - 12 - n) } : Heap) = s₁
  have hc₁ : Chain s₁ (pre ++ ⟨len, true⟩ :: post) :=
    h.chain.of_mem (hs₁ ▸ rfl) (hs₁ ▸ rfl) (hs₁ ▸ rfl)
  have hsplit := hc₁.split hn (by omega)
  have hlowered : (splitBlock s₁ (extent pre) n).usedMem = s.usedMem - (len - 12 - n) := by
    subst hs₁
    refine usub_of_le ?_ (by omega)
    simp only [total_append, total_cons, usedLen, if_true] at hused
    omega
  have hcounted : Counted (splitBlock s₁ (extent pre) n)
      ((pre ++ [⟨12 + n, true⟩]) ++ ⟨len - (12 + n), false⟩ :: post) := by
    refine ⟨by rw [List.append_assoc]; exact hsplit, ?_, fun b hb hu => ?_, ?_, ?_⟩
    · subst hs₁
      simp only [bound_append, bound_cons, bound_nil, extent_append, extent_cons, extent_nil,
        Nat.zero_add, Nat.add_zero, hstop] at hl ⊢
      rcases hl with hl | hl | hl
      · exact .inl (.inl hl)
      · exact .inl (.inr (.inl hl))
      · exact .inr (.inr hl)
    · have hold := h.room b
      simp only [List.mem_append, List.mem_cons, List.not_mem_nil, or_false] at hb hold
      rcases hb with (hb | rfl) | rfl | hb
      · exact hold (.inl hb) hu
      · simp only [sizeofStructMem]
        omega
      · cases hu
      · exact hold (.inr (.inr hb)) hu
    · rw [hlowered, hused]
      simp only [total_append, total_cons, total_nil, usedLen, if_true, Bool.false_eq_true,
        if_false]
      omega
    · rw [hlowered]
      subst hs₁
      exact Nat.le_trans (Nat.sub_le _ _) hmax
  have hfirst : Spaced (pre ++ [⟨12 + n, true⟩]) :=
    spaced_split.mpr ⟨hpre, .nil, hlast, fun _ hb => by cases hb⟩
  obtain ⟨s', bs', hplug, hblocks, hplace, hstarts⟩ := hcounted.plugHoles hfirst hpost
  rw [extent_append, extent_cons, extent_nil, Nat.add_zero] at hplug
  refine ⟨s', bs', hplug, hblocks, ?_, ?_⟩
  · subst hs₁
    exact hplace
  · rw [hstarts]
    simp [startsOf, hstop]

theorem Chain.ptr_ne_zero (s : Heap) (x : Nat) : s.heapPtr + x + sizeofStructMem ≠ 0 := by
  simp [sizeofStructMem]

/-- A move gives up, and nothing has changed, or it copies the data into a new block and frees the
old one. -/
theorem Blocks.move_parts {rmem n : Nat} (h : Blocks s bs) (hn : n + 3 < 2 ^ 32)
    (hcall : SmallMem.move s rmem n = some (s', p)) :
    p = 0 ∧ s' = s ∨ ∃ t m pre len post k, rtMalloc s n = some (t, p) ∧
      Blocks t (pre ++ ⟨len, true⟩ :: post) ∧ SamePlace s t ∧
      p = s.heapPtr + extent pre + sizeofStructMem ∧
      (startsOf true 0 (pre ++ ⟨len, true⟩ :: post)).Perm (extent pre :: startsOf true 0 bs) ∧
      k = min (s.dataSize (s.memOf rmem)) n ∧ 12 + n ≤ len ∧
      m = copy t.mem (extent pre + 12) (s.memOf rmem + 12) k ∧
      rtFree { t with mem := m } rmem = some s' := by
  obtain ⟨⟨t, nmem⟩, hmalloc, hcall⟩ := Option.bind_eq_some_iff.mp hcall
  rcases h.malloc hmalloc with ⟨rfl, rfl⟩ | ⟨pre, len, post, ht, hplace, rfl, hlen, hperm⟩
  · obtain ⟨rfl, rfl⟩ := Prod.mk.inj (Option.some.inj hcall)
    exact .inl ⟨rfl, rfl⟩
  · dsimp only at hcall
    rw [if_pos (Chain.ptr_ne_zero s _)] at hcall
    obtain ⟨t', hfree, heq⟩ := Option.map_eq_some_iff.mp hcall
    obtain ⟨rfl, rfl⟩ := Prod.mk.inj heq
    have halign := (rtAlign_four hn).1
    have hmemOf : t.memOf (s.heapPtr + extent pre + sizeofStructMem) = extent pre := by
      rw [← hplace.1]
      exact ht.chain.memOf ht.chain.start_lt
    rw [hmemOf] at hfree
    generalize s.dataSize (s.memOf rmem) = size at hfree
    have hmin : (if size < n then size else n) = min size n := by
      split <;> omega
    rw [hmin] at hfree
    exact .inr ⟨t, _, pre, len, post, _, hmalloc, ht, hplace, rfl, hperm, rfl, by omega, rfl, hfree⟩

/-- The copy stays inside the new block. -/
theorem copy_outside {m : Mem} {dst src n y : Nat} (hy : y < dst ∨ dst + n ≤ y) :
    copy m dst src n y = m y := if_neg fun hin => by omega

theorem copy_inside {m : Mem} {dst src n i : Nat} (hi : i < n) :
    copy m dst src n (dst + i) = m (src + i) := by
  rw [copy, if_pos (by omega), Nat.add_sub_cancel_left, Nat.add_comm]

/-- What a move gives: zero, and nothing has changed, or one used block more and the old
one less. -/
theorem Blocks.move {n : Nat} (h : Blocks s bs) (hx : x ∈ startsOf true 0 bs)
    (hn : n + 3 < 2 ^ 32)
    (hcall : SmallMem.move s (s.heapPtr + x + sizeofStructMem) n = some (s', p)) :
    p = 0 ∧ s' = s ∨ ∃ y bs', Blocks s' bs' ∧ SamePlace s s' ∧
      p = s.heapPtr + y + sizeofStructMem ∧
      (y :: startsOf true 0 bs).Perm (x :: startsOf true 0 bs') := by
  rcases h.move_parts hn hcall with hnone | ⟨t, m, pre, len, post, k, -, ht, hplace, hp, hperm, hk,
    hlen, hm, hfree⟩
  · exact .inl hnone
  · have hcopied : Blocks { t with mem := m } (pre ++ ⟨len, true⟩ :: post) :=
      ht.data fun y hy => hm ▸ copy_outside (by omega)
    have hx' : x ∈ startsOf true 0 (pre ++ ⟨len, true⟩ :: post) :=
      hperm.mem_iff.mpr (List.mem_cons_of_mem _ hx)
    obtain ⟨u, bs', hu, hblocks, hplace', hperm'⟩ := hcopied.free hx'
    rw [← hplace.1] at hfree
    obtain rfl := Option.some.inj (hu.symm.trans hfree)
    exact .inr ⟨extent pre, bs', hblocks,
      ⟨hplace'.1.trans hplace.1, hplace'.2.trans hplace.2⟩, hp, hperm.symm.trans hperm'⟩

end

/-! ## Runs -/

/-- What the callers do. A word of data is stored at the pointer and an index. -/
inductive Event where
  | malloc (size : Nat)
  | calloc (count size : Nat)
  | realloc (rmem newsize : Nat)
  | free (rmem : Nat)
  | store (rmem i v : Nat)

/-- The heap and the pointers that the callers hold. -/
structure HeapRun where
  heap : Heap
  live : List Nat := []

/-- Only pointers that are held are resized, freed and written through. -/
def Allowed (s : HeapRun) : Event → Prop
  | .malloc _ => True
  | .calloc _ _ => True
  | .realloc rmem _ => rmem = 0 ∨ rmem ∈ s.live
  | .free rmem => rmem = 0 ∨ rmem ∈ s.live
  | .store rmem i _ => rmem ∈ s.live ∧ 4 * i + 4 ≤ s.heap.dataSize (s.heap.memOf rmem)

instance (s : HeapRun) (e : Event) : Decidable (Allowed s e) :=
  match e with
  | .malloc _ => inferInstanceAs (Decidable True)
  | .calloc _ _ => inferInstanceAs (Decidable True)
  | .realloc rmem _ => inferInstanceAs (Decidable (rmem = 0 ∨ rmem ∈ s.live))
  | .free rmem => inferInstanceAs (Decidable (rmem = 0 ∨ rmem ∈ s.live))
  | .store rmem i _ => inferInstanceAs (Decidable
      (rmem ∈ s.live ∧ 4 * i + 4 ≤ s.heap.dataSize (s.heap.memOf rmem)))

/-- A pointer that is not zero is held. -/
def held (live : List Nat) (p : Nat) : List Nat := if p = 0 then live else p :: live

/-- A caller that asks for zero bytes gives its pointer up; one that asks for more and is
refused keeps it. -/
def heldAfter (live : List Nat) (rmem newsize p : Nat) : List Nat :=
  if p = 0 ∧ newsize ≠ 0 then live else held (live.erase rmem) p

/-- The state after a call that returns. -/
def act (s : HeapRun) : Event → Option HeapRun
  | .malloc size => (rtMalloc s.heap size).map fun (heap, p) => ⟨heap, held s.live p⟩
  | .calloc count size => (rtCalloc s.heap count size).map fun (heap, p) => ⟨heap, held s.live p⟩
  | .realloc rmem newsize => (rtRealloc s.heap rmem newsize).map fun (heap, p) =>
    ⟨heap, heldAfter s.live rmem newsize p⟩
  | .free rmem => (rtFree s.heap rmem).map fun heap => ⟨heap, s.live.erase rmem⟩
  | .store rmem i v => some { s with
      heap := { s.heap with
        mem := s.heap.mem.set (s.heap.memOf rmem + sizeofStructMem + 4 * i) v } }

def step (s : HeapRun) (e : Event) : Option HeapRun := if Allowed s e then act s e else none

def start (mem : Mem) (beginAddr endAddr : Nat) : Option HeapRun :=
  (rtSystemHeapInit mem beginAddr endAddr).map fun heap => { heap := heap }

/-- The data behind a pointer: up to the next header. -/
def dataOf (s : Heap) (p : Nat) : Extent := ⟨p, s.dataSize (s.memOf p)⟩

/-- The blocks are intact, the used ones are those of the callers, and what the callers may
write is theirs alone. -/
structure Intact (s : HeapRun) (bs : List Block) : Prop where
  tiled : Tiled sizeofStructMem (node s.heap.mem) 0 0 bs
  reaches : extent bs = s.heap.heapEnd
  sentinel : (node s.heap.mem s.heap.heapEnd).isSome
  spaced : Spaced bs
  used : s.heap.usedMem = total usedLen bs
  max : s.heap.usedMem ≤ s.heap.maxMem
  live : s.live.Perm ((startsOf true 0 bs).map fun x => s.heap.heapPtr + x + sizeofStructMem)
  aligned : ∀ p ∈ s.live, 4 ∣ p
  inside : ∀ p ∈ s.live,
    s.heap.heapPtr ≤ p ∧ (dataOf s.heap p).stop ≤ s.heap.heapPtr + s.heap.heapEnd
  apart : s.live.Pairwise fun p q => (dataOf s.heap p).Apart (dataOf s.heap q)

def WellFormed (s : HeapRun) : Prop := ∃ bs, Intact s bs

/-- `RT_ALIGN` does not make the size zero. -/
def Good (s : HeapRun) : Event → Prop
  | .malloc _ => True
  | .calloc count size => u32 (count * size) ≤ 2 ^ 32 - 4
  | .realloc rmem newsize => rmem ∈ s.live → newsize ≤ 2 ^ 32 - 4
  | .free _ => True
  | .store _ _ _ => True

/-- The pointers to the data of the used blocks. -/
def ptrs (s : Heap) (bs : List Block) : List Nat :=
  (startsOf true 0 bs).map fun x => s.heapPtr + x + sizeofStructMem

/-- The callers hold exactly the used blocks. -/
structure Owned (s : HeapRun) (bs : List Block) : Prop where
  blocks : Blocks s.heap bs
  live : s.live.Perm (ptrs s.heap bs)

section
variable {s s' : HeapRun} {t : Heap} {pre post bs : List Block} {b : Block} {n p rmem : Nat}

theorem Chain.dataOf (h : Chain t (pre ++ b :: post)) :
    dataOf t (t.heapPtr + extent pre + sizeofStructMem) =
      ⟨t.heapPtr + extent pre + sizeofStructMem, b.len - 12⟩ := by
  unfold SmallMem.dataOf
  rw [h.memOf h.start_lt, h.dataSize]

theorem Owned.mem_live (h : Owned s bs) (hp : p ∈ s.live) :
    ∃ x ∈ startsOf true 0 bs, p = s.heap.heapPtr + x + sizeofStructMem := by
  obtain ⟨x, hx, rfl⟩ := List.mem_map.mp (h.live.mem_iff.mp hp)
  exact ⟨x, hx, rfl⟩

/-- A live pointer is that of a used block. -/
theorem Owned.block (h : Owned s bs) (hp : p ∈ s.live) : ∃ pre len post,
    bs = pre ++ ⟨len, true⟩ :: post ∧ p = s.heap.heapPtr + extent pre + sizeofStructMem := by
  obtain ⟨x, hx, rfl⟩ := h.mem_live hp
  obtain ⟨pre, ⟨len, u⟩, post, rfl, rfl, rfl⟩ := mem_startsOf hx
  exact ⟨pre, len, post, rfl, by rw [Nat.zero_add]⟩

theorem Owned.zero_notMem (h : Owned s bs) : 0 ∉ s.live := fun h0 => by
  obtain ⟨x, -, hx⟩ := h.mem_live h0
  exact Chain.ptr_ne_zero _ _ hx.symm

theorem Owned.intact (h : Owned s bs) : Intact s bs := by
  have hc := h.blocks.chain
  obtain ⟨q, hsentinel⟩ := hc.sentinel
  refine ⟨hc.tiled, hc.reaches, by rw [hsentinel]; rfl, h.blocks.spaced, h.blocks.used,
    h.blocks.max, h.live, fun p hp => ?_, fun p hp => ?_, ?_⟩
  · obtain ⟨pre, len, post, rfl, rfl⟩ := h.block hp
    exact Nat.dvd_add (Nat.dvd_add hc.aligned hc.dvd_start) (by decide)
  · obtain ⟨pre, len, post, rfl, rfl⟩ := h.block hp
    have hend := hc.end_le
    have hlen := hc.tiled.header.2
    rw [hc.dataOf]
    simp only [Extent.stop, sizeofStructMem] at hend hlen ⊢
    omega
  · rw [h.live.pairwise_iff fun hxy => hxy.symm, ptrs, List.pairwise_map]
    refine (hc.tiled.pairwise_starts true).imp_of_mem fun {x y} hx _ hxy => ?_
    obtain ⟨n, hn, -, hle⟩ := hxy
    obtain ⟨pre, b, post, rfl, -, rfl⟩ := mem_startsOf hx
    have hheader := hc.tiled.header
    obtain rfl := Option.some.inj (hn.symm.trans hheader.1)
    left
    rw [Nat.zero_add, hc.dataOf]
    simp only [Extent.stop, sizeofStructMem, SmallMem.dataOf] at hle hheader ⊢
    omega

theorem Owned.unique {bs' : List Block} (h : Owned s bs) (h' : Intact s bs') : bs = bs' :=
  h.blocks.chain.tiled.unique h'.tiled (by decide)
    (h.blocks.chain.reaches.trans h'.reaches.symm)

/-- One more block is held. -/
theorem Owned.gives {t' : Heap} {live : List Nat} (h : Owned ⟨t, live⟩ bs)
    (hg : Gives t bs n t' p) : ∃ bs', Owned ⟨t', held live p⟩ bs' := by
  rcases hg with ⟨rfl, rfl⟩ | ⟨pre, len, post, hblocks, hplace, rfl, -, hperm⟩
  · exact ⟨bs, h⟩
  · refine ⟨_, hblocks, ?_⟩
    rw [held, if_neg (Chain.ptr_ne_zero _ _), ptrs, hplace.1]
    exact (h.live.cons _).trans (hperm.symm.map fun x => t.heapPtr + x + sizeofStructMem)

theorem Owned.free {live : List Nat} (h : Owned ⟨t, live⟩ bs)
    (hmem : rmem = 0 ∨ rmem ∈ live) : ∃ t' bs', rtFree t rmem = some t' ∧
      Owned ⟨t', live.erase rmem⟩ bs' := by
  rcases hmem with rfl | hmem
  · refine ⟨t, bs, if_pos rfl, ?_⟩
    rw [List.erase_of_not_mem h.zero_notMem]
    exact h
  · obtain ⟨x, hx, rfl⟩ := h.mem_live hmem
    obtain ⟨t', bs', hfree, hblocks, hplace, hperm⟩ := h.blocks.free hx
    refine ⟨t', bs', hfree, hblocks, ?_⟩
    have hlive := (h.live.trans (hperm.map _)).erase (t.heapPtr + x + sizeofStructMem)
    rw [List.map_cons, List.erase_cons_head] at hlive
    rw [ptrs, hplace.1]
    exact hlive

/-- A block is resized in place, or given up for another one. -/
theorem Owned.resize {t' : Heap} {live : List Nat} (h : Owned ⟨t, live⟩ bs)
    (hmem : rmem ∈ live) (hn : 4 ∣ n) (hpos : 0 < n) (hfit : n + 24 < 2 ^ 32)
    (hcall : SmallMem.resize t rmem n = some (t', p)) :
    ∃ bs', Owned ⟨t', if p = 0 then live else p :: live.erase rmem⟩ bs' := by
  obtain ⟨x, hx, rfl⟩ := h.mem_live hmem
  have hsame : (if t.heapPtr + x + sizeofStructMem = 0 then live else
      (t.heapPtr + x + sizeofStructMem) :: live.erase (t.heapPtr + x + sizeofStructMem)).Perm
      live := by
    rw [if_neg (Chain.ptr_ne_zero _ _)]
    exact (List.perm_cons_erase hmem).symm
  obtain ⟨pre, ⟨len, u⟩, post, rfl, rfl, rfl⟩ := mem_startsOf hx
  have hc := h.blocks.chain
  have hmemOf := hc.memOf hc.start_lt
  have hneed : u32 (n + sizeofStructMem + minSize) = n + 24 := u32_of_lt hfit
  unfold SmallMem.resize at hcall
  rw [Nat.zero_add] at hcall hsame hx
  rw [hmemOf, hc.dataSize, hneed] at hcall
  split at hcall
  · obtain ⟨rfl, rfl⟩ := Prod.mk.inj (Option.some.inj hcall)
    rw [Nat.zero_add]
    exact ⟨_, h.blocks, hsame.trans h.live⟩
  · split at hcall
    · rename_i hlt
      obtain ⟨u, hshrink, heq⟩ := Option.map_eq_some_iff.mp hcall
      obtain ⟨rfl, rfl⟩ := Prod.mk.inj heq
      obtain ⟨t', bs', hs', hblocks, hplace, hstarts⟩ := h.blocks.shrink hn hpos hlt
      obtain rfl := Option.some.inj (hs'.symm.trans hshrink)
      rw [Nat.zero_add]
      refine ⟨bs', hblocks, ?_⟩
      rw [ptrs, hplace.1, hstarts]
      exact hsame.trans h.live
    · rw [Nat.zero_add]
      rcases h.blocks.move hx (by omega) hcall with ⟨rfl, rfl⟩ | ⟨y, bs', hb, hplace, rfl, hperm⟩
      · exact ⟨_, h⟩
      · refine ⟨bs', hb, ?_⟩
        rw [if_neg (Chain.ptr_ne_zero _ _), ptrs, hplace.1]
        have hlive := ((h.live.cons (t.heapPtr + y + sizeofStructMem)).trans
          (hperm.map fun x => t.heapPtr + x + sizeofStructMem))
        have hswap :=
          ((List.perm_cons_erase hmem).cons (t.heapPtr + y + sizeofStructMem)).symm.trans hlive
        rw [Nat.zero_add] at hswap
        exact ((List.Perm.swap _ _ _).trans hswap).cons_inv

theorem Owned.realloc {t' : Heap} {live : List Nat} (h : Owned ⟨t, live⟩ bs)
    (hmem : rmem = 0 ∨ rmem ∈ live) (hgood : rmem ∈ live → n ≤ 2 ^ 32 - 4)
    (hcall : rtRealloc t rmem n = some (t', p)) :
    ∃ bs', Owned ⟨t', heldAfter live rmem n p⟩ bs' := by
  have hc := h.blocks.chain
  have hzero : n = 0 → rtAlign n rtAlignSize = 0 := fun h0 => by rw [h0]; rfl
  unfold rtRealloc at hcall
  by_cases hbig : rtAlign n rtAlignSize > t.memSizeAligned
  · rw [if_pos hbig] at hcall
    obtain ⟨rfl, rfl⟩ := Prod.mk.inj (Option.some.inj hcall)
    have hn : n ≠ 0 := fun h0 => by
      rw [hzero h0] at hbig
      exact Nat.not_lt_zero _ hbig
    rw [heldAfter, if_pos ⟨rfl, hn⟩]
    exact ⟨bs, h⟩
  rw [if_neg hbig] at hcall
  by_cases hnone : rtAlign n rtAlignSize = 0
  · rw [if_pos hnone] at hcall
    obtain ⟨u, hfree, heq⟩ := Option.map_eq_some_iff.mp hcall
    obtain ⟨rfl, rfl⟩ := Prod.mk.inj heq
    obtain ⟨u', bs', hfree', howned⟩ := h.free hmem
    obtain rfl := Option.some.inj (hfree'.symm.trans hfree)
    have hlive : heldAfter live rmem n 0 = live.erase rmem := by
      unfold heldAfter
      split
      · rename_i hn
        rcases hmem with rfl | hmem
        · exact (List.erase_of_not_mem h.zero_notMem).symm
        · have := hgood hmem
          have := (rtAlign_four (show n + 3 < 2 ^ 32 by omega)).1
          omega
      · rfl
    exact ⟨bs', hlive ▸ howned⟩
  rw [if_neg hnone] at hcall
  have hafter : heldAfter live rmem n p = if p = 0 then live else p :: live.erase rmem := by
    have hn : n ≠ 0 := fun h0 => hnone (hzero h0)
    by_cases hp : p = 0
    · rw [heldAfter, if_pos ⟨hp, hn⟩, if_pos hp]
    · rw [heldAfter, if_neg fun hand => hp hand.1, held, if_neg hp, if_neg hp]
  rw [hafter]
  by_cases hnull : rmem = 0
  · rw [if_pos hnull] at hcall
    obtain ⟨bs', howned⟩ := h.gives (h.blocks.malloc hcall)
    rw [hnull, List.erase_of_not_mem h.zero_notMem]
    exact ⟨bs', howned⟩
  · rw [if_neg hnull] at hcall
    have hlive := hmem.resolve_left hnull
    obtain ⟨pre, len, post, rfl, hptr⟩ := h.block hlive
    have hroom := h.blocks.room _ (List.mem_append_right _ List.mem_cons_self) rfl
    have hrange := hc.in_range hroom
    have hfits := hc.fits
    dsimp only at hptr
    rw [← hptr] at hrange
    rw [if_neg hrange] at hcall
    refine h.resize hlive (dvd_rtAlign n rtAlignSize) (Nat.pos_of_ne_zero hnone) ?_ hcall
    simp only [Heap.heapEnd, sizeofStructMem] at hfits
    omega

end

theorem clear_outside {m : Mem} {dst n y : Nat} (hy : y < dst ∨ dst + n ≤ y) :
    clear m dst n y = m y := by
  rw [clear, if_neg (by omega), if_neg (by omega)]

/-- What `rt_calloc` clears is the data of the new block. -/
theorem Blocks.calloc_parts {t t' : Heap} {bs : List Block} {count size p : Nat} (h : Blocks t bs)
    (hcall : rtCalloc t count size = some (t', p)) :
    p = 0 ∧ t' = t ∨ ∃ u pre len post, rtMalloc t (u32 (count * size)) = some (u, p) ∧
      Blocks u (pre ++ ⟨len, true⟩ :: post) ∧ SamePlace t u ∧
      p = t.heapPtr + extent pre + sizeofStructMem ∧
      12 + rtAlign (u32 (count * size)) rtAlignSize ≤ len ∧
      (startsOf true 0 (pre ++ ⟨len, true⟩ :: post)).Perm (extent pre :: startsOf true 0 bs) ∧
      t' = { u with mem := clear u.mem (extent pre + sizeofStructMem) (u32 (count * size)) } := by
  obtain ⟨⟨u, q⟩, hmalloc, heq⟩ := Option.map_eq_some_iff.mp hcall
  rcases h.malloc hmalloc with ⟨rfl, rfl⟩ | ⟨pre, len, post, hu, hplace, rfl, hlen, hperm⟩
  · obtain ⟨rfl, rfl⟩ := Prod.mk.inj heq
    exact .inl ⟨rfl, rfl⟩
  · have hmemOf : u.memOf (t.heapPtr + extent pre + sizeofStructMem) = extent pre := by
      rw [← hplace.1]
      exact hu.chain.memOf hu.chain.start_lt
    dsimp only at heq
    rw [if_pos (Chain.ptr_ne_zero t _), hmemOf] at heq
    obtain ⟨rfl, rfl⟩ := Prod.mk.inj heq
    exact .inr ⟨u, pre, len, post, hmalloc, hu, hplace, rfl, hlen, hperm, rfl⟩

theorem Blocks.calloc {t t' : Heap} {bs : List Block} {count size p : Nat} (h : Blocks t bs)
    (hgood : u32 (count * size) ≤ 2 ^ 32 - 4) (hcall : rtCalloc t count size = some (t', p)) :
    Gives t bs 0 t' p := by
  have halign := (rtAlign_four (show u32 (count * size) + 3 < 2 ^ 32 by omega)).1
  rcases h.calloc_parts hcall with hnone | ⟨u, pre, len, post, -, hu, hplace, rfl, hlen, hperm, rfl⟩
  · exact .inl hnone
  · refine .inr ⟨pre, len, post, hu.data fun x hx => clear_outside ?_, hplace, rfl, by omega, hperm⟩
    simp only [sizeofStructMem]
    omega

theorem Owned.store {s : HeapRun} {bs : List Block} {rmem i : Nat} (h : Owned s bs)
    (hmem : rmem ∈ s.live) (hi : 4 * i + 4 ≤ s.heap.dataSize (s.heap.memOf rmem)) (v : Nat) :
    Owned { s with heap := { s.heap with
      mem := s.heap.mem.set (s.heap.memOf rmem + sizeofStructMem + 4 * i) v } } bs := by
  obtain ⟨pre, len, post, rfl, rfl⟩ := h.block hmem
  have hc := h.blocks.chain
  rw [hc.memOf hc.start_lt, hc.dataSize] at hi
  refine ⟨h.blocks.data fun x hx => ?_, h.live⟩
  rw [hc.memOf hc.start_lt]
  simp only [sizeofStructMem] at hi ⊢
  exact Mem.set_ne _ _ (by omega)

/-- A good step keeps the blocks with their owners. -/
theorem Owned.step {s s' : HeapRun} {e : Event} (h : ∃ bs, Owned s bs) (hgood : Good s e)
    (hstep : SmallMem.step s e = some s') : ∃ bs, Owned s' bs := by
  obtain ⟨bs, h⟩ := h
  obtain ⟨hallowed, hact⟩ := Option.ite_none_right_eq_some.mp hstep
  cases e with
  | malloc size =>
    obtain ⟨⟨t, p⟩, hcall, rfl⟩ := Option.map_eq_some_iff.mp hact
    exact h.gives (h.blocks.malloc hcall)
  | calloc count size =>
    obtain ⟨⟨t, p⟩, hcall, rfl⟩ := Option.map_eq_some_iff.mp hact
    exact h.gives (h.blocks.calloc hgood hcall)
  | realloc rmem newsize =>
    obtain ⟨⟨t, p⟩, hcall, rfl⟩ := Option.map_eq_some_iff.mp hact
    exact h.realloc hallowed hgood hcall
  | free rmem =>
    obtain ⟨t, hcall, rfl⟩ := Option.map_eq_some_iff.mp hact
    obtain ⟨t', bs', hfree, howned⟩ := h.free hallowed
    obtain rfl := Option.some.inj (hfree.symm.trans hcall)
    exact ⟨bs', howned⟩
  | store rmem i v =>
    obtain rfl := Option.some.inj hact
    exact ⟨bs, h.store hallowed.1 hallowed.2 v⟩

/-- The heap begins as one free block. -/
theorem blocks_init (mem : Mem) {a n : Nat} (ha : 4 ∣ a) (hn : 4 ∣ n)
    (hfits : a + (n + sizeofStructMem) + sizeofStructMem < 2 ^ 32) :
    Blocks { heapPtr := a, memSizeAligned := n, lfree := 0,
             mem := writeHdr (writeHdr mem 0 (header ⟨false, n + sizeofStructMem, 0⟩))
               (n + sizeofStructMem)
               (header ⟨true, n + sizeofStructMem, n + sizeofStructMem⟩) }
      [⟨n + sizeofStructMem, false⟩] := by
  have hfirst : node (writeHdr (writeHdr mem 0 (header ⟨false, n + sizeofStructMem, 0⟩))
      (n + sizeofStructMem) (header ⟨true, n + sizeofStructMem, n + sizeofStructMem⟩)) 0 =
      some ⟨false, n + sizeofStructMem, 0⟩ := by
    rw [node_writeHdr_ne _ (by simp only [sizeofStructMem]; omega), node_writeHdr]
  have htiled : Tiled sizeofStructMem (node (writeHdr (writeHdr mem 0
      (header ⟨false, n + sizeofStructMem, 0⟩)) (n + sizeofStructMem)
      (header ⟨true, n + sizeofStructMem, n + sizeofStructMem⟩))) 0 0
      [⟨n + sizeofStructMem, false⟩] :=
    ⟨by rw [hfirst, Nat.zero_add], Nat.le_add_left _ _, trivial⟩
  have hwords : ∀ b ∈ [Block.mk (n + sizeofStructMem) false], 4 ∣ b.len := fun b hb => by
    obtain rfl := List.mem_singleton.mp hb
    exact Nat.dvd_add hn (by decide)
  have hroom : ∀ b ∈ [Block.mk (n + sizeofStructMem) false], b.used → sizeofStructMem < b.len :=
    fun b hb hu => by
      obtain rfl := List.mem_singleton.mp hb
      cases hu
  exact ⟨⟨⟨htiled, Nat.add_zero _, ⟨_, node_writeHdr _ _ _⟩, hwords, ha, hfits⟩, bound_self, hroom,
    rfl, Nat.le_refl 0⟩, .singleton _⟩

theorem start_single {mem : Mem} {beginAddr endAddr : Nat} (hend : endAddr < 2 ^ 32)
    {s : HeapRun} (hstart : start mem beginAddr endAddr = some s) :
    ∃ len, Owned s [⟨len, false⟩] ∧ s.heap.lfree = 0 := by
  obtain ⟨heap, hinit, rfl⟩ := Option.map_eq_some_iff.mp hstart
  unfold rtSystemHeapInit at hinit
  have hbegin := dvd_rtAlign beginAddr rtAlignSize
  have hdown := dvd_rtAlignDown endAddr rtAlignSize
  have hle := rtAlignDown_le endAddr rtAlignSize
  dsimp only at hinit
  generalize rtAlign beginAddr rtAlignSize = a at hinit hbegin
  generalize rtAlignDown endAddr rtAlignSize = c at hinit hdown hle
  obtain ⟨⟨-, hroom⟩, hinit⟩ := Option.ite_none_right_eq_some.mp hinit
  obtain rfl := Option.some.inj hinit
  change 4 ∣ a at hbegin
  change 4 ∣ c at hdown
  have hsize : 4 ∣ c - a - 2 * sizeofStructMem ∧
      a + (c - a - 2 * sizeofStructMem + sizeofStructMem) + sizeofStructMem < 2 ^ 32 := by
    simp only [sizeofStructMem] at hroom ⊢
    omega
  exact ⟨_, ⟨blocks_init mem hbegin hsize.1 hsize.2, .refl _⟩, rfl⟩

theorem start_owned {mem : Mem} {beginAddr endAddr : Nat} (hend : endAddr < 2 ^ 32)
    {s : HeapRun} (hstart : start mem beginAddr endAddr = some s) : ∃ bs, Owned s bs :=
  let ⟨_, howned, _⟩ := start_single hend hstart
  ⟨_, howned⟩

/-- In a run of good steps the blocks are intact in every state. -/
theorem intact_throughout (mem : Mem) (beginAddr endAddr : Nat) (hend : endAddr < 2 ^ 32)
    (s : HeapRun) (hstart : start mem beginAddr endAddr = some s) (es : List Event)
    (hgood : Along step Good s es) : Throughout step WellFormed s es :=
  throughout_of_along (fun _ ⟨bs, h⟩ => ⟨bs, h.intact⟩)
    (fun _ _ _ h hgood hstep => Owned.step h hgood hstep) (start_owned hend hstart) hgood

theorem intact_after_calloc : ∃ s, start (fun _ => 0) 0 200 = some s ∧
    Throughout step WellFormed s [.malloc 10, .calloc 2 10, .free 12] := by
  obtain ⟨s, hs⟩ : ∃ s, start (fun _ => 0) 0 200 = some s := ⟨_, rfl⟩
  exact ⟨s, hs, intact_throughout _ 0 200 (by decide) s hs _
    fun _ _ => ⟨trivial, fun _ _ => ⟨by simp [Good, u32], fun _ _ => ⟨trivial, trivial⟩⟩⟩⟩

theorem not_wellFormed_of_broken {s : HeapRun} {n : Node} (hfirst : node s.heap.mem 0 = some n)
    (hlast : n.next ≠ s.heap.heapEnd) (hbroken : node s.heap.mem n.next = none) :
    ¬ WellFormed s := by
  rintro ⟨bs, h⟩
  have htiled := h.tiled
  have hreaches := h.reaches
  rcases bs with _ | ⟨b, _ | ⟨c, bs⟩⟩
  · have hend : 0 = s.heap.memSizeAligned + 12 := hreaches
    omega
  · obtain rfl := Option.some.inj (hfirst.symm.trans htiled.1)
    rw [extent_cons, extent_nil] at hreaches
    exact hlast (by dsimp only; omega)
  · obtain rfl := Option.some.inj (hfirst.symm.trans htiled.1)
    cases hbroken.symm.trans htiled.2.2.1

/-- `rt_calloc(1, 0xFFFFFFFF)` gets a block of twelve bytes and clears the headers behind
it. -/
theorem calloc_clears_headers : ∃ s, start (fun _ => 0) 0 60 = some s ∧
    ¬ Throughout step WellFormed s [.calloc 1 0xFFFFFFFF] := by
  have hrun : ((start (fun _ => 0) 0 60).bind fun s => (step s (.calloc 1 0xFFFFFFFF)).map
      fun s => (node s.heap.mem 0, node s.heap.mem 24, s.heap.heapEnd)) =
      some (some ⟨true, 24, 0⟩, none, 48) := by decide +kernel
  obtain ⟨s, hs, hstep⟩ := Option.bind_eq_some_iff.mp hrun
  obtain ⟨s', hs', heq⟩ := Option.map_eq_some_iff.mp hstep
  obtain ⟨hfirst, hheq⟩ := Prod.mk.inj heq
  obtain ⟨hbroken, hend⟩ := Prod.mk.inj hheq
  refine ⟨s, hs, fun h => not_wellFormed_of_broken hfirst ?_ hbroken (h.2 s' hs')⟩
  rw [hend]
  decide

end ControlRTT.Kernel.SmallMem

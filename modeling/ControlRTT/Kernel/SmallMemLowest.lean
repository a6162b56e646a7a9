import ControlRTT.Kernel.SmallMemRuns

/-! # The lowest free block (mem.c)

`lfree` is where `rt_malloc` begins to search. `rt_malloc` and `rt_free` keep it at the lowest free
block, but `rt_realloc`, when it cuts a block in place, does not move it down to the new free block
(`lowest_throughout_iff`). -/
namespace ControlRTT.Kernel.SmallMem
open ControlRTT.Kernel.RtDef ControlRTT.Lib.CInt ControlRTT.Lib.Runs ControlRTT.Lib.Tiling
  ControlRTT.Lib.WordMem

/-- `lfree` is the first free block of the chain, or `heap_end`. -/
def Low (s : Heap) : Prop := ∃ bs, Chain s bs ∧ s.lfree = lowest 0 bs

section
variable {s s' : Heap} {pre post bs bs' : List Block} {len size fuel ptr x p n : Nat}

theorem Chain.low_iff (h : Chain s bs) : Low s ↔ s.lfree = lowest 0 bs := by
  constructor
  · rintro ⟨bs', h', hlow⟩
    rw [h.unique h']
    exact hlow
  · exact fun hlow => ⟨bs, h, hlow⟩

/-- Around a block, if it is free. -/
theorem lowest_free (pre : List Block) (l : Nat) (rest : List Block) :
    lowest 0 (pre ++ ⟨l, false⟩ :: rest) =
      if ∀ b ∈ pre, b.used then extent pre else lowest 0 pre := by
  split
  · rename_i hall
    rw [lowest_append_used hall, Nat.zero_add]
    rfl
  · rename_i hsome
    exact lowest_append_free hsome 0

/-- Around a block, if it is used. -/
theorem lowest_used (pre : List Block) (l : Nat) (rest : List Block) :
    lowest 0 (pre ++ ⟨l, true⟩ :: rest) =
      if ∀ b ∈ pre, b.used then lowest (extent pre + l) rest else lowest 0 pre := by
  split
  · rename_i hall
    rw [lowest_append_used hall, Nat.zero_add]
    rfl
  · rename_i hsome
    exact lowest_append_free hsome 0

theorem Chain.lowest_lt (h : Chain s (pre ++ post)) (hsome : ¬ ∀ b ∈ pre, b.used) :
    lowest 0 pre < extent pre := by
  have hpos : ∀ b ∈ pre, 0 < b.len := fun b hb => h.pos b (List.mem_append_left _ hb)
  have hlt := lowest_lt_extent hpos hsome 0
  rwa [Nat.zero_add] at hlt

/-! ## Allocating -/

/-- The walk goes on to the next free block. -/
theorem Chain.nextFree_eq (h : Chain s (pre ++ post)) (hptr : ptr = extent pre)
    (hnext : SmallMem.nextFree s fuel ptr = some x) : x = lowest ptr post := by
  induction fuel generalizing pre post ptr with
  | zero => cases hnext
  | succ fuel ih =>
    unfold SmallMem.nextFree at hnext
    cases post with
    | nil =>
      have hend : ptr = s.heapEnd := by
        rw [hptr, ← h.reaches, List.append_nil]
      rw [if_neg fun hand => hand.2 hend] at hnext
      exact (Option.some.inj hnext).symm
    | cons b post =>
      have hstart := h.hdr_start
      have hlt := h.start_lt
      rw [← hptr] at hstart hlt
      rw [hstart] at hnext
      unfold lowest
      cases hb : b.used with
      | true =>
        rw [hb] at hnext
        rw [if_pos ⟨Nat.one_ne_zero, Nat.ne_of_lt hlt⟩] at hnext
        have hlater : Chain s ((pre ++ [b]) ++ post) := by
          rw [List.append_assoc]
          exact h
        exact ih hlater (by simp [hptr]) hnext
      | false =>
        rw [hb] at hnext
        rw [if_neg fun hand => hand.1 rfl] at hnext
        exact (Option.some.inj hnext).symm

/-- `lfree` moves on if its block is taken. -/
theorem Blocks.take_low (h : Blocks s (pre ++ ⟨len, false⟩ :: post)) (hlow : Low s)
    (hsize : 4 ∣ size) (hroom : 12 + size ≤ len)
    (htake : takeBlock s size (extent pre) = some s') : Low s' := by
  obtain ⟨len', post', -, hcut⟩ := h.cut hsize hroom
  have hmarked := hcut.chain.mark true
  have hl := h.chain.low_iff.mp hlow
  rw [lowest_free, ← hcut.lfree] at hl
  unfold takeBlock at htake
  generalize cutBlock s size (extent pre) = s₁ at htake hcut hmarked hl
  dsimp only at htake
  split at htake
  · rename_i hfirst
    obtain ⟨l, hnext, rfl⟩ := Option.map_eq_some_iff.mp htake
    have hall : ∀ b ∈ pre, b.used := by
      by_contra hsome
      have hlt := h.chain.lowest_lt hsome
      rw [if_neg hsome] at hl
      omega
    have hl' := hmarked.nextFree_eq hfirst.symm hnext
    refine ⟨_, hmarked.of_mem rfl rfl rfl, ?_⟩
    change l = _
    rw [hl', ← hfirst, lowest_append_used hall, Nat.zero_add]
  · rename_i hother
    have hsome : ¬ ∀ b ∈ pre, b.used := fun hall => by
      rw [if_pos hall] at hl
      exact hother hl.symm
    obtain rfl := Option.some.inj htake
    refine ⟨_, hmarked, ?_⟩
    rw [lowest_used, if_neg hsome]
    rw [if_neg hsome] at hl
    exact hl

theorem Blocks.malloc_low (h : Blocks s bs) (hlow : Low s)
    (hcall : rtMalloc s size = some (s', p)) : Low s' := by
  rcases h.malloc_parts hcall with ⟨-, rfl⟩ | ⟨n, pre, len, post, -, -, hsize, rfl, hlen, htake, -⟩
  · exact hlow
  · exact h.take_low hlow hsize hlen htake

/-! ## Freeing -/

/-- Where free neighbours are joined, `lfree` follows. -/
theorem Chain.join_low {a b : Nat} (h : Chain s (pre ++ ⟨a, false⟩ :: ⟨b, false⟩ :: post))
    (hlow : Low s) : Low { s.link (extent pre) (extent pre + (a + b)) with
      lfree := if s.lfree = extent pre + a then extent pre else s.lfree } := by
  have hl := h.low_iff.mp hlow
  have ha : 0 < a := h.pos ⟨a, false⟩ (List.mem_append_right _ List.mem_cons_self)
  have hfirst : s.lfree ≠ extent pre + a := by
    rw [hl, lowest_free]
    split
    · omega
    · rename_i hsome
      have hlt := h.lowest_lt hsome
      omega
  rw [if_neg hfirst]
  refine ⟨_, h.join.of_mem rfl rfl rfl, ?_⟩
  change s.lfree = _
  rw [lowest_free] at hl ⊢
  exact hl

theorem Chain.plugForward_low (h : Chain s (pre ++ ⟨len, false⟩ :: post)) (hlow : Low s) :
    Low (SmallMem.plugForward s (extent pre)) := by
  rcases post with _ | ⟨⟨l, _ | _⟩, post⟩
  · rw [h.plugForward_stay fun b hb => by cases hb]
    exact hlow
  · rw [h.plugForward_join]
    exact h.join_low hlow
  · rw [h.plugForward_stay fun b hb => Option.some.inj hb ▸ rfl]
    exact hlow

theorem Chain.plugForward_chain (h : Chain s (pre ++ ⟨len, false⟩ :: post)) : ∃ len' post',
    Chain (SmallMem.plugForward s (extent pre)) (pre ++ ⟨len', false⟩ :: post') := by
  rcases post with _ | ⟨⟨l, _ | _⟩, post⟩
  · rw [h.plugForward_stay fun b hb => by cases hb]
    exact ⟨len, [], h⟩
  · rw [h.plugForward_join]
    exact ⟨len + l, post, h.join.of_mem rfl rfl rfl⟩
  · rw [h.plugForward_stay fun b hb => Option.some.inj hb ▸ rfl]
    exact ⟨len, _, h⟩

theorem Chain.plugBackward_low (h : Chain s (pre ++ ⟨len, false⟩ :: post)) (hlow : Low s) :
    Low (SmallMem.plugBackward s (extent pre)) := by
  rcases List.eq_nil_or_concat pre with rfl | ⟨pre, ⟨l, _ | _⟩, rfl⟩
  · rw [h.plugBackward_stay fun b hb => by cases hb]
    exact hlow
  · simp only [List.concat_eq_append, List.append_assoc, List.cons_append, List.nil_append,
      extent_append, extent_cons, extent_nil, Nat.add_zero] at h ⊢
    rw [h.plugBackward_join]
    exact h.join_low hlow
  · have hused : ∀ b ∈ (pre.concat (Block.mk l true)).getLast?, b.used := fun b hb => by
      simp only [List.concat_eq_append, List.getLast?_concat] at hb
      obtain rfl := Option.some.inj hb
      rfl
    rw [h.plugBackward_stay hused]
    exact hlow

theorem Chain.plugHoles_low (h : Chain s (pre ++ ⟨len, false⟩ :: post)) (hlow : Low s)
    (hplug : SmallMem.plugHoles s (extent pre) = some s') : Low s' := by
  obtain ⟨-, heq⟩ := Option.ite_none_right_eq_some.mp hplug
  obtain rfl := Option.some.inj heq
  obtain ⟨len', post', hchain⟩ := h.plugForward_chain
  exact hchain.plugBackward_low (h.plugForward_low hlow)

/-- Nothing is joined to a used block. -/
theorem Chain.plugHoles_behind {l : Nat}
    (h : Chain s ((pre ++ [⟨l, true⟩]) ++ ⟨len, false⟩ :: post))
    (hplug : SmallMem.plugHoles s (extent (pre ++ [⟨l, true⟩])) = some s') :
    s' = SmallMem.plugForward s (extent (pre ++ [⟨l, true⟩])) := by
  obtain ⟨-, heq⟩ := Option.ite_none_right_eq_some.mp hplug
  obtain ⟨len', post', hchain⟩ := h.plugForward_chain
  rw [hchain.plugBackward_stay fun b hb => ?_] at heq
  · exact (Option.some.inj heq).symm
  · rw [List.getLast?_concat] at hb
    exact Option.some.inj hb ▸ rfl

theorem Blocks.free_low (h : Blocks s bs) (hlow : Low s) (hx : x ∈ startsOf true 0 bs)
    (hfree : rtFree s (s.heapPtr + x + sizeofStructMem) = some s') : Low s' := by
  obtain ⟨pre, ⟨len, u⟩, post, rfl, rfl, rfl⟩ := mem_startsOf hx
  have hl := h.chain.low_iff.mp hlow
  have hchain := h.toCounted.unused.chain
  rw [Nat.zero_add, h.chain.rtFree_eq (h.room _ (List.mem_append_right _ List.mem_cons_self) rfl)]
    at hfree
  refine hchain.plugHoles_low ⟨_, hchain, ?_⟩ hfree
  rw [lowest_used] at hl
  rw [lowest_free]
  change (if extent pre < s.lfree then extent pre else s.lfree) = _
  by_cases hall : ∀ b ∈ pre, b.used
  · have hle := le_lowest (extent pre + len) post
    have hlen : 0 < len := h.chain.pos ⟨len, true⟩ (List.mem_append_right _ List.mem_cons_self)
    rw [if_pos hall] at hl ⊢
    rw [if_pos (by omega)]
  · have hlt := h.chain.lowest_lt hall
    rw [if_neg hall] at hl ⊢
    rw [if_neg (by omega), hl]

/-! ## Resizing -/

theorem Chain.data_low {m : Mem} (h : Chain s (pre ++ ⟨len, true⟩ :: post)) (hlow : Low s)
    (hdata : ∀ y, y < extent pre + 12 ∨ extent pre + len ≤ y → m y = s.mem y) :
    Low { s with mem := m } :=
  ⟨_, h.data hdata, h.low_iff.mp hlow⟩

/-- A block that is cut in place leaves a free block. `lfree` is right then if a block before it is
free, or if the one behind it was the lowest free one and is joined with it. -/
theorem Blocks.shrink_low_iff (h : Blocks s (pre ++ ⟨len, true⟩ :: post)) (hlow : Low s)
    (hn : 4 ∣ n) (hroom : n + 24 < len - 12)
    (hshrink : SmallMem.shrink s (extent pre) n = some s') :
    Low s' ↔ s.lfree < extent pre ∨ extent pre + len = s.lfree ∧ s.lfree ≠ s.heapEnd := by
  have hl := h.chain.low_iff.mp hlow
  have hlen : extent (pre ++ [⟨12 + n, true⟩]) = extent pre + 12 + n := by
    simp [Nat.add_assoc]
  unfold SmallMem.shrink at hshrink
  generalize hs₁ : ({ s with usedMem := usub s.usedMem (s.dataSize (extent pre) - n) } : Heap) =
    s₁ at hshrink
  have hlfree : (splitBlock s₁ (extent pre) n).lfree = s.lfree := by
    rw [← hs₁]
    rfl
  have hc₁ : Chain s₁ (pre ++ ⟨len, true⟩ :: post) :=
    h.chain.of_mem (hs₁ ▸ rfl) (hs₁ ▸ rfl) (hs₁ ▸ rfl)
  have hsplit : Chain (splitBlock s₁ (extent pre) n)
      ((pre ++ [⟨12 + n, true⟩]) ++ ⟨len - (12 + n), false⟩ :: post) := by
    rw [List.append_assoc]
    exact hc₁.split hn (by omega)
  have hrest : lowest 0 ((pre ++ [⟨12 + n, true⟩]) ++ ⟨len - (12 + n), false⟩ :: post) =
      if ∀ b ∈ pre, b.used then extent pre + 12 + n else lowest 0 pre := by
    rw [List.append_assoc, List.singleton_append, lowest_used]
    simp [lowest, Nat.add_assoc]
  generalize splitBlock s₁ (extent pre) n = s₂ at hshrink hlfree hsplit
  have hplug : SmallMem.plugHoles s₂ (extent (pre ++ [⟨12 + n, true⟩])) = some s' := by
    rw [hlen]
    exact hshrink
  have hpos : 0 < len := h.chain.pos ⟨len, true⟩ (List.mem_append_right _ List.mem_cons_self)
  rw [lowest_used] at hl
  by_cases hall : ∀ b ∈ pre, b.used
  · rw [if_pos hall] at hl hrest
    obtain rfl := hsplit.plugHoles_behind hplug
    rcases post with _ | ⟨⟨l, _ | _⟩, post⟩
    · have hend := h.chain.last_iff.mp rfl
      rw [hsplit.plugForward_stay fun b hb => (by cases hb), hsplit.low_iff, hrest, hlfree, hl,
        lowest]
      dsimp only at hend
      omega
    · have hlast : extent pre + len ≠ s.heapEnd := fun hend =>
        absurd (h.chain.last_iff.mpr hend) (List.cons_ne_nil _ _)
      have hbehind : s.lfree = extent pre + len := hl
      have hjoined : s₂.lfree = extent (pre ++ [⟨12 + n, true⟩]) + (len - (12 + n)) := by
        omega
      rw [hsplit.plugForward_join, if_pos hjoined]
      refine ⟨fun _ => .inr ⟨hbehind.symm, hbehind ▸ hlast⟩, fun _ => ⟨_, hsplit.join.of_mem rfl rfl
        rfl, ?_⟩⟩
      change extent _ = _
      rw [List.append_assoc, List.singleton_append, lowest_used, if_pos hall, hlen,
        lowest, if_neg Bool.false_ne_true, Nat.add_assoc]
    · have hle := le_lowest (extent pre + len + l) post
      have hl0 : 0 < l := h.chain.pos ⟨l, true⟩ (by simp)
      rw [hsplit.plugForward_stay fun b hb => Option.some.inj hb ▸ rfl, hsplit.low_iff, hrest,
        hlfree, hl, lowest, if_pos rfl]
      dsimp only
      omega
  · rw [if_neg hall] at hl hrest
    have hlt := h.chain.lowest_lt hall
    have hlow₂ : Low s₂ := ⟨_, hsplit, by rw [hlfree, hrest, hl]⟩
    exact ⟨fun _ => .inl (hl ▸ hlt), fun _ => hsplit.plugHoles_low hlow₂ hplug⟩

theorem Blocks.move_low (h : Blocks s bs) (hlow : Low s) (hx : x ∈ startsOf true 0 bs)
    (hn : n + 3 < 2 ^ 32)
    (hcall : SmallMem.move s (s.heapPtr + x + sizeofStructMem) n = some (s', p)) : Low s' := by
  rcases h.move_parts hn hcall with ⟨-, rfl⟩ | ⟨t, m, pre, len, post, k, hmalloc, ht, hplace, -,
    hperm, hk, hlen, hm, hfree⟩
  · exact hlow
  · have hdata : ∀ y, y < extent pre + 12 ∨ extent pre + len ≤ y → m y = t.mem y := fun y hy =>
      hm ▸ copy_outside (by omega)
    have hx' : x ∈ startsOf true 0 (pre ++ ⟨len, true⟩ :: post) :=
      hperm.mem_iff.mpr (List.mem_cons_of_mem _ hx)
    rw [← hplace.1] at hfree
    exact (ht.data hdata).free_low (ht.chain.data_low (h.malloc_low hlow hmalloc) hdata) hx' hfree

theorem Blocks.calloc_low {count : Nat} (h : Blocks s bs) (hlow : Low s)
    (hgood : u32 (count * size) ≤ 2 ^ 32 - 4) (hcall : rtCalloc s count size = some (s', p)) :
    Low s' := by
  have halign := (rtAlign_four (show u32 (count * size) + 3 < 2 ^ 32 by omega)).1
  rcases h.calloc_parts hcall with ⟨-, rfl⟩ | ⟨t, pre, len, post, hmalloc, ht, -, -, hlen, -, rfl⟩
  · exact hlow
  · refine ht.chain.data_low (h.malloc_low hlow hmalloc) fun x hx => clear_outside ?_
    simp only [sizeofStructMem]
    omega

end

/-! ## Runs -/

/-- `rt_realloc` cuts the block in place. -/
def Cuts (s : Heap) (rmem newsize : Nat) : Prop :=
  rtAlign newsize rtAlignSize ≤ s.memSizeAligned ∧ rtAlign newsize rtAlignSize ≠ 0 ∧ rmem ≠ 0 ∧
    u32 (rtAlign newsize rtAlignSize + sizeofStructMem + minSize) < s.dataSize (s.memOf rmem)

instance (s : Heap) (rmem newsize : Nat) : Decidable (Cuts s rmem newsize) :=
  inferInstanceAs (Decidable (_ ∧ _ ∧ _ ∧ _))

/-- Where a block is cut in place, `lfree` is below it, or `lfree` is the block behind it, which is
joined with what is cut off. -/
def Updates (s : HeapRun) : Event → Prop
  | .realloc rmem newsize => Cuts s.heap rmem newsize →
    s.heap.lfree < s.heap.memOf rmem ∨
      (s.heap.hdr (s.heap.memOf rmem)).next = s.heap.lfree ∧ s.heap.lfree ≠ s.heap.heapEnd
  | _ => True

instance (s : HeapRun) (e : Event) : Decidable (Updates s e) :=
  match e with
  | .malloc _ => inferInstanceAs (Decidable True)
  | .calloc _ _ => inferInstanceAs (Decidable True)
  | .realloc _ _ => inferInstanceAs (Decidable (_ → _ ∨ _ ∧ _))
  | .free _ => inferInstanceAs (Decidable True)
  | .store _ _ _ => inferInstanceAs (Decidable True)

/-- The blocks are intact, and `lfree` is the lowest free one, or `heap_end` if none is free. -/
def Lowest (s : HeapRun) : Prop := ∃ bs, Intact s bs ∧
  (s.heap.lfree ∈ startsOf false 0 bs ∧ (∀ x ∈ startsOf false 0 bs, s.heap.lfree ≤ x) ∨
    startsOf false 0 bs = [] ∧ s.heap.lfree = s.heap.heapEnd)

section
variable {s s' : HeapRun} {t t' : Heap} {live : List Nat} {bs : List Block} {rmem n p : Nat}

theorem Owned.lowest (h : Owned s bs) (hlow : Low s.heap) : Lowest s := by
  have hl := h.blocks.chain.low_iff.mp hlow
  refine ⟨bs, h.intact, ?_⟩
  rw [hl]
  rcases lowest_mem_or_end 0 bs with hmem | ⟨hnone, hend⟩
  · exact .inl ⟨hmem, fun x hx => lowest_le_of_mem hx⟩
  · refine .inr ⟨hnone, ?_⟩
    rw [hend, Nat.zero_add, h.blocks.chain.reaches]

theorem Lowest.low (h : Lowest s) (howned : Owned s bs) : Low s.heap := by
  obtain ⟨bs', hintact, hlfree⟩ := h
  have hchain := howned.blocks.chain
  obtain rfl := howned.unique hintact
  refine hchain.low_iff.mpr ?_
  rcases lowest_mem_or_end 0 bs with hmem | ⟨hnone, hend⟩
  · rcases hlfree with ⟨hfree, hle⟩ | ⟨hnone, -⟩
    · exact Nat.le_antisymm (hle _ hmem) (lowest_le_of_mem hfree)
    · rw [hnone] at hmem
      cases hmem
  · rcases hlfree with ⟨hfree, -⟩ | ⟨-, hlfree⟩
    · rw [hnone] at hfree
      cases hfree
    · rw [hlfree, hend, Nat.zero_add, hchain.reaches]

/-- Only where a block is cut in place may `lfree` be left too high. -/
theorem Owned.resize_low_iff (h : Owned ⟨t, live⟩ bs) (hlow : Low t) (hmem : rmem ∈ live)
    (hn : 4 ∣ n) (hfit : n + 24 < 2 ^ 32) (hcall : SmallMem.resize t rmem n = some (t', p)) :
    Low t' ↔ (u32 (n + sizeofStructMem + minSize) < t.dataSize (t.memOf rmem) →
      t.lfree < t.memOf rmem ∨ (t.hdr (t.memOf rmem)).next = t.lfree ∧ t.lfree ≠ t.heapEnd) := by
  obtain ⟨x, hx, rfl⟩ := h.mem_live hmem
  have hx' := hx
  obtain ⟨pre, ⟨len, u⟩, post, rfl, rfl, rfl⟩ := mem_startsOf hx
  have hc := h.blocks.chain
  have hmemOf := hc.memOf hc.start_lt
  have hneed : u32 (n + sizeofStructMem + minSize) = n + 24 := u32_of_lt hfit
  unfold SmallMem.resize at hcall
  rw [Nat.zero_add] at hcall hx' ⊢
  rw [hmemOf, hc.dataSize, hneed] at hcall ⊢
  rw [hc.hdr_start]
  split at hcall
  · rename_i hsame
    obtain ⟨rfl, -⟩ := Prod.mk.inj (Option.some.inj hcall)
    exact iff_of_true hlow fun hlt => by omega
  split at hcall
  · rename_i hlt
    obtain ⟨u, hshrink, heq⟩ := Option.map_eq_some_iff.mp hcall
    obtain ⟨rfl, -⟩ := Prod.mk.inj heq
    rw [h.blocks.shrink_low_iff hlow hn hlt hshrink]
    exact ⟨fun hor _ => hor, fun hstep => hstep hlt⟩
  · rename_i hle
    exact iff_of_true (h.blocks.move_low hlow hx' (by omega) hcall) fun hlt => absurd hlt hle

theorem Owned.realloc_low_iff (h : Owned ⟨t, live⟩ bs) (hlow : Low t)
    (hmem : rmem = 0 ∨ rmem ∈ live) (hcall : rtRealloc t rmem n = some (t', p)) :
    Low t' ↔ Updates ⟨t, live⟩ (.realloc rmem n) := by
  have hc := h.blocks.chain
  have hfree (hcall : rtFree t rmem = some t') : Low t' := by
    rcases hmem with rfl | hlive
    · obtain rfl := Option.some.inj hcall
      exact hlow
    · obtain ⟨x, hx, rfl⟩ := h.mem_live hlive
      exact h.blocks.free_low hlow hx hcall
  unfold rtRealloc at hcall
  by_cases hbig : rtAlign n rtAlignSize > t.memSizeAligned
  · rw [if_pos hbig] at hcall
    obtain ⟨rfl, -⟩ := Prod.mk.inj (Option.some.inj hcall)
    exact iff_of_true hlow fun hcuts => absurd hcuts.1 (Nat.not_le_of_gt hbig)
  rw [if_neg hbig] at hcall
  by_cases hnone : rtAlign n rtAlignSize = 0
  · rw [if_pos hnone] at hcall
    obtain ⟨u, hfreed, heq⟩ := Option.map_eq_some_iff.mp hcall
    obtain ⟨rfl, -⟩ := Prod.mk.inj heq
    exact iff_of_true (hfree hfreed) fun hcuts => absurd hnone hcuts.2.1
  rw [if_neg hnone] at hcall
  by_cases hnull : rmem = 0
  · rw [if_pos hnull] at hcall
    exact iff_of_true (h.blocks.malloc_low hlow hcall) fun hcuts => absurd hnull hcuts.2.2.1
  rw [if_neg hnull] at hcall
  have hlive := hmem.resolve_left hnull
  obtain ⟨pre, len, post, rfl, hptr⟩ := h.block hlive
  have hrange := hc.in_range (h.blocks.room _ (List.mem_append_right _ List.mem_cons_self) rfl)
  dsimp only at hptr
  rw [← hptr] at hrange
  rw [if_neg hrange] at hcall
  have hfits := hc.fits
  simp only [Heap.heapEnd, sizeofStructMem] at hfits
  rw [h.resize_low_iff hlow hlive (dvd_rtAlign n rtAlignSize) (by omega) hcall]
  exact ⟨fun hstep hcuts => hstep hcuts.2.2.2,
    fun hstep hlt => hstep ⟨Nat.le_of_not_gt hbig, hnone, hnull, hlt⟩⟩

/-- A step keeps `lfree` right exactly if it updates it. -/
theorem Low.step_iff {e : Event} (h : Owned s bs) (hlow : Low s.heap) (hgood : Good s e)
    (hstep : SmallMem.step s e = some s') : Low s'.heap ↔ Updates s e := by
  obtain ⟨hallowed, hact⟩ := Option.ite_none_right_eq_some.mp hstep
  cases e with
  | malloc size =>
    obtain ⟨⟨t, p⟩, hcall, rfl⟩ := Option.map_eq_some_iff.mp hact
    exact iff_of_true (h.blocks.malloc_low hlow hcall) trivial
  | calloc count size =>
    obtain ⟨⟨t, p⟩, hcall, rfl⟩ := Option.map_eq_some_iff.mp hact
    exact iff_of_true (h.blocks.calloc_low hlow hgood hcall) trivial
  | realloc rmem newsize =>
    obtain ⟨⟨t, p⟩, hcall, rfl⟩ := Option.map_eq_some_iff.mp hact
    exact h.realloc_low_iff hlow hallowed hcall
  | free rmem =>
    obtain ⟨t, hcall, rfl⟩ := Option.map_eq_some_iff.mp hact
    refine iff_of_true ?_ trivial
    rcases hallowed with rfl | hlive
    · obtain rfl := Option.some.inj hcall
      exact hlow
    · obtain ⟨x, hx, rfl⟩ := h.mem_live hlive
      exact h.blocks.free_low hlow hx hcall
  | store rmem i v =>
    obtain rfl := Option.some.inj hact
    exact iff_of_true (((h.store hallowed.1 hallowed.2 v).blocks.chain).low_iff.mpr
      (h.blocks.chain.low_iff.mp hlow)) trivial

end

theorem start_low {mem : Mem} {beginAddr endAddr : Nat} (hend : endAddr < 2 ^ 32) {s : HeapRun}
    (hstart : start mem beginAddr endAddr = some s) : Low s.heap := by
  obtain ⟨len, howned, hzero⟩ := start_single hend hstart
  exact howned.blocks.chain.low_iff.mpr hzero

theorem Owned.lowest_runs_iff {s : HeapRun} {bs : List Block} (h : Owned s bs) (hlow : Low s.heap)
    {es : List Event} (hgood : Along SmallMem.step Good s es) :
    Throughout SmallMem.step Lowest s es ↔ Along SmallMem.step Updates s es := by
  refine throughout_iff_along_of_along (J := fun s => (∃ bs, Owned s bs) ∧ Low s.heap)
    (fun s ⟨⟨_, h⟩, hlow⟩ => h.lowest hlow) (fun s e s' ⟨⟨_, h⟩, hlow⟩ hgood hupdates hstep => ?_)
    (fun s e s' ⟨⟨_, h⟩, hlow⟩ hgood hstep hlowest => ?_) ⟨⟨bs, h⟩, hlow⟩ hgood
  · exact ⟨Owned.step ⟨_, h⟩ hgood hstep, (Low.step_iff h hlow hgood hstep).mpr hupdates⟩
  · obtain ⟨bs', h'⟩ := Owned.step ⟨_, h⟩ hgood hstep
    exact (Low.step_iff h hlow hgood hstep).mp (hlowest.low h')

/-- In a run of good steps `lfree` is the lowest free block in every state exactly if every step
updates it. -/
theorem lowest_throughout_iff (mem : Mem) (beginAddr endAddr : Nat) (hend : endAddr < 2 ^ 32)
    (s : HeapRun) (hstart : start mem beginAddr endAddr = some s) (es : List Event)
    (hgood : Along step Good s es) : Throughout step Lowest s es ↔ Along step Updates s es :=
  let ⟨_, howned⟩ := start_owned hend hstart
  howned.lowest_runs_iff (start_low hend hstart) hgood

/-- The block that is cut has the lowest free one right behind it. -/
theorem lowest_after_cut : ∃ s, start (fun _ => 0) 0 200 = some s ∧
    (Throughout step Lowest s [.malloc 60, .realloc 12 12] ↔
      Along step Updates s [.malloc 60, .realloc 12 12]) := by
  obtain ⟨s, hs⟩ : ∃ s, start (fun _ => 0) 0 200 = some s := ⟨_, rfl⟩
  exact ⟨s, hs, lowest_throughout_iff _ 0 200 (by decide) s hs _
    fun _ _ => ⟨trivial, fun _ _ => ⟨fun _ => by decide, trivial⟩⟩⟩

/-- A used block is behind the one that is cut, and `lfree` stays behind both. -/
theorem cut_missed : ∃ s, start (fun _ => 0) 0 200 = some s ∧
    ¬ Throughout step Lowest s [.malloc 60, .malloc 12, .realloc 12 12] := by
  obtain ⟨s, hs⟩ : ∃ s, start (fun _ => 0) 0 200 = some s := ⟨_, rfl⟩
  have hrun : (start (fun _ => 0) 0 200).map (fun s => decide
      (Along step Updates s [.malloc 60, .malloc 12, .realloc 12 12])) = some false := by
    decide +kernel
  obtain ⟨bs, howned⟩ := start_owned (by decide) hs
  rw [hs] at hrun
  have hgood : Along step Good s [.malloc 60, .malloc 12, .realloc 12 12] := fun _ _ =>
    ⟨trivial, fun _ _ => ⟨trivial, fun _ _ => ⟨fun _ => by decide, trivial⟩⟩⟩
  refine ⟨s, hs, fun h => of_decide_eq_false (Option.some.inj hrun) ?_⟩
  exact (howned.lowest_runs_iff (start_low (by decide) hs) hgood).mp h

end ControlRTT.Kernel.SmallMem

import ControlRTT.Kernel.MemHeapItems

/-! # The calls of a memory heap

Each call keeps the items, the free list and the count of the free bytes in step. -/
namespace ControlRTT.Kernel.MemHeap
open ControlRTT.Kernel.RtDef ControlRTT.Lib.CInt ControlRTT.Lib.LinkedRing ControlRTT.Lib.Tiling
  ControlRTT.Lib.WordMem

/-- What a free item adds to `available_size`. -/
def freeLen (b : Block) : Nat := if b.used then 0 else b.len - rtMemheapSize

/-- What is kept while an item is on its way into the free list or out of it. A used item has at
least `RT_MEMHEAP_MINIALLOC` bytes of data. -/
structure Counted (s : Memheap) (bs : List Block) (xs : List Nat) : Prop where
  linked : Linked s.toPool s.mem bs xs
  room : ∀ b ∈ bs, b.used → rtMemheapSize + rtMemheapMinialloc ≤ b.len
  avail : s.availableSize = total freeLen bs

/-- The free list goes over exactly the free items, and no two neighbours are free. -/
structure Blocks (s : Memheap) (bs : List Block) (xs : List Nat) : Prop
    extends Counted s bs xs where
  perm : xs.Perm (startsOf false s.startAddr bs)
  spaced : Spaced bs

section
variable {s t : Memheap} {p : Pool} {m : Mem} {pre post bs : List Block} {xs ys : List Nat}
  {k l len size x y n : Nat} {u v : Bool}

theorem Chain.size_of {b : Block} (h : Chain p m (pre ++ b :: post)) :
    memitemSize m (p.startAddr + extent pre) = b.len - 24 := by
  have hend := h.end_le
  have htailer := h.tailer_lt.1
  have hlen := h.header_start.2
  simp only [rtMemheapSize] at htailer hlen
  have hspan : usub (p.startAddr + extent pre + b.len) (p.startAddr + extent pre) = b.len := by
    rw [usub_of_le (by omega) (by omega), Nat.add_sub_cancel_left]
  unfold memitemSize rtMemheapSize
  rw [h.next_start, hspan, usub_of_le hlen (by omega)]

theorem Chain.pos (h : Chain p m bs) : ∀ b ∈ bs, 0 < b.len := by
  intro b hb
  obtain ⟨pre, post, rfl⟩ := List.append_of_mem hb
  exact Nat.lt_of_lt_of_le (by decide) h.header_start.2

theorem total_freeLen_le (h : ∀ b ∈ bs, rtMemheapSize ≤ b.len) :
    total freeLen bs + rtMemheapSize * bs.length ≤ extent bs := by
  induction bs with
  | nil => exact Nat.le_refl 0
  | cons b bs ih =>
    obtain ⟨hb, hbs⟩ := List.forall_mem_cons.mp h
    have hlater := ih hbs
    have hfirst : freeLen b + rtMemheapSize ≤ b.len := by
      unfold freeLen
      split <;> omega
    rw [total_cons, extent_cons, List.length_cons, Nat.mul_add_one]
    omega

theorem Chain.free_lt (h : Chain p m bs) : total freeLen bs + 24 < 2 ^ 32 := by
  have hlen : ∀ b ∈ bs, rtMemheapSize ≤ b.len := by
    intro b hb
    obtain ⟨pre, post, rfl⟩ := List.append_of_mem hb
    exact h.header_start.2
  have hle := total_freeLen_le hlen
  have hend := h.reaches
  have htailer := h.tailer_lt.1
  simp only [rtMemheapSize] at hle htailer
  rcases bs with _ | ⟨b, bs⟩
  · simp only [total_nil]
    omega
  · simp only [List.length_cons] at hle
    omega

@[simp] theorem freeLen_used (len : Nat) : freeLen ⟨len, true⟩ = 0 := rfl

@[simp] theorem freeLen_free (len : Nat) : freeLen ⟨len, false⟩ = len - 24 := rfl

theorem Linked.markUsed (h : Linked p m (pre ++ ⟨len, u⟩ :: post) xs) :
    Linked p (setMagic m (p.startAddr + extent pre)
      (magic m (p.startAddr + extent pre) ||| rtMemheapUsed)) (pre ++ ⟨len, true⟩ :: post) xs := by
  rw [setMagic_or h.chain.header_start.1]
  exact h.mark true

theorem Linked.markFree (h : Linked p m (pre ++ ⟨len, u⟩ :: post) xs) :
    Linked p (setMagic m (p.startAddr + extent pre)
      (magic m (p.startAddr + extent pre) &&& rtMemheapMask)) (pre ++ ⟨len, false⟩ :: post) xs := by
  rw [setMagic_and h.chain.header_start.1]
  exact h.mark false

/-! ## Allocating -/

/-- The search goes over the free list. -/
theorem findFree_walk {rest : List Nat} {fuel freeSize : Nat}
    (hr : (x :: (rest ++ [s.freeList])).IsChain (Follows (nextFree s.mem) (prevFree s.mem)))
    (hout : s.freeList ∉ rest) (hsmall : freeSize < size) (hfuel : rest.length < fuel) :
    ∃ headerPtr r, findFree s size fuel (nextFree s.mem x) freeSize = some (headerPtr, r) ∧
      (r < size ∧ (∀ y ∈ rest, memitemSize s.mem y < size) ∨
        headerPtr ∈ rest ∧ r = memitemSize s.mem headerPtr ∧ size ≤ r) := by
  induction rest generalizing x freeSize fuel with
  | nil =>
    obtain ⟨⟨hnext, -⟩, -⟩ := List.isChain_cons_cons.mp hr
    obtain ⟨fuel, rfl⟩ := Nat.exists_eq_add_one_of_ne_zero (Nat.ne_of_gt hfuel)
    rw [hnext, findFree, if_neg fun hand => hand.1 rfl]
    exact ⟨_, _, rfl, .inl ⟨hsmall, fun y hy => by cases hy⟩⟩
  | cons z rest ih =>
    obtain ⟨⟨hnext, -⟩, hrest⟩ := List.isChain_cons_cons.mp hr
    obtain ⟨hz, hout⟩ := not_or.mp (fun hor => hout (List.mem_cons.mpr hor))
    obtain ⟨fuel, rfl⟩ := Nat.exists_eq_add_one_of_ne_zero (Nat.ne_of_gt (Nat.zero_lt_of_lt hfuel))
    have hshort : rest.length < fuel := Nat.lt_of_succ_lt_succ hfuel
    rw [hnext, findFree, if_pos ⟨Ne.symm hz, hsmall⟩]
    dsimp only
    by_cases hfit : memitemSize s.mem z < size
    · rw [if_pos hfit]
      obtain ⟨headerPtr, r, hfind, hcases⟩ := ih hrest hout hfit hshort
      refine ⟨headerPtr, r, hfind, hcases.imp ?_ ?_⟩
      · exact fun ⟨hr, hall⟩ => ⟨hr, List.forall_mem_cons.mpr ⟨hfit, hall⟩⟩
      · exact fun ⟨hmem, hr⟩ => ⟨List.mem_cons_of_mem z hmem, hr⟩
    · obtain ⟨fuel, rfl⟩ := Nat.exists_eq_add_one_of_ne_zero (show fuel ≠ 0 by omega)
      rw [if_neg hfit, findFree, if_neg fun hand => hfit hand.2]
      exact ⟨z, _, rfl, .inr ⟨List.mem_cons_self, rfl, Nat.le_of_not_lt hfit⟩⟩

/-- The search ends, with a free item that is long enough if there is one. -/
theorem Blocks.findFree (h : Blocks s bs xs) (hsize : 0 < size) : ∃ headerPtr r,
    MemHeap.findFree s size s.poolSize (nextFree s.mem s.freeList) 0 = some (headerPtr, r) ∧
      (r < size ∧ (∀ y ∈ xs, memitemSize s.mem y < size) ∨
        headerPtr ∈ xs ∧ r = memitemSize s.mem headerPtr ∧ size ≤ r) := by
  have hlength := h.perm.length_eq
  have hle := length_startsOf_le h.linked.chain.pos false s.startAddr
  have hend := h.linked.chain.reaches
  have htailer := h.linked.chain.tailer_lt.2
  have hout : s.freeList ∉ xs := (List.nodup_cons.mp h.linked.all.1).1
  have hring : (s.freeList :: (xs ++ [s.freeList])).IsChain
      (Follows (nextFree s.mem) (prevFree s.mem)) := h.linked.ring
  simp only [rtMemheapSize] at htailer
  exact findFree_walk hring hout hsize (by omega)

/-- What begins inside of an item is not in the free list. -/
theorem Linked.inside_notMem (h : Linked p m (pre ++ ⟨len, u⟩ :: post) xs)
    (hpos : p.startAddr + extent pre < x) (hend : x < p.startAddr + extent pre + len) :
    x ∉ xs := fun hx => by
  have hapart := h.chain.block_apart (.inl (h.bounds x hx))
  simp only [rtMemheapSize] at hapart
  omega

/-- An item that is not free is in no list. -/
theorem Blocks.used_notMem (h : Blocks s (pre ++ ⟨len, true⟩ :: post) xs) :
    s.startAddr + extent pre ∉ xs := fun hx => by
  have hfree := h.perm.mem_iff.mp hx
  have hused : s.startAddr + extent pre ∈ startsOf true s.startAddr (pre ++ ⟨len, true⟩ :: post) :=
    by simp
  exact startsOf_disjoint h.linked.chain.pos true s.startAddr hused hfree

/-- The parts of a heap that its blocks depend on. -/
theorem Counted.of_parts (hpool : t.toPool = p) (hmem : t.mem = m) (hlinked : Linked p m bs xs)
    (hroom : ∀ b ∈ bs, b.used → 36 ≤ b.len) (havail : t.availableSize = total freeLen bs) :
    Counted t bs xs := by
  subst hpool hmem
  exact ⟨hlinked, hroom, havail⟩

theorem Blocks.of_counted (hpool : t.toPool = p) (h : Counted t bs xs)
    (hperm : xs.Perm (startsOf false p.startAddr bs)) (hspaced : Spaced bs) : Blocks t bs xs := by
  subst hpool
  exact ⟨h, hperm, hspaced⟩

/-- An item leaves the free list. -/
theorem Blocks.take_perm (h : Blocks s (pre ++ ⟨len, false⟩ :: post)
    (xs ++ (s.startAddr + extent pre) :: ys)) :
    (xs ++ ys).Perm (startsOf false s.startAddr pre ++
      startsOf false (s.startAddr + extent pre + len) post) := by
  have hall := h.perm
  rw [startsOf_append, startsOf_mk_self] at hall
  exact (List.perm_middle.symm.trans (hall.trans List.perm_middle)).cons_inv

/-- Whether an item is cut. -/
theorem Chain.handOut_cut (h : Chain s.toPool m (pre ++ ⟨len, u⟩ :: post))
    (hroom : 24 + size ≤ len) :
    len - 24 ≥ u32 (size + rtMemheapSize + rtMemheapMinialloc) ↔ size + 60 ≤ len := by
  have hend := h.end_le
  have htailer := h.tailer_lt.1
  simp only [rtMemheapSize] at htailer
  dsimp only at hend
  simp only [rtMemheapSize, rtMemheapMinialloc]
  rw [u32_of_lt (by omega)]
  omega

/-- An item is cut, and its second part is put in front of the free list. -/
theorem Blocks.handOut_split (h : Blocks s (pre ++ ⟨len, false⟩ :: post)
    (xs ++ (s.startAddr + extent pre) :: ys)) (hsize : 4 ∣ size) (hmin : 12 ≤ size)
    (hroom : size + 60 ≤ len) :
    Blocks (handOut s size (s.startAddr + extent pre) (len - 24))
      (pre ++ ⟨24 + size, true⟩ :: ⟨len - (24 + size), false⟩ :: post)
      ((s.startAddr + extent pre + 24 + size) :: (xs ++ ys)) ∧
    (handOut s size (s.startAddr + extent pre) (len - 24)).toPool = s.toPool := by
  have hend := h.linked.chain.end_le
  have htailer := h.linked.chain.tailer_lt.1
  have havail := h.avail
  have hlt := h.linked.chain.free_lt
  have hold : ∀ b ∈ pre ++ ⟨len, false⟩ :: post, b.used → 36 ≤ b.len := h.room
  have hperm := h.take_perm
  obtain ⟨hpre, hpost, -, hhead⟩ := spaced_split.mp h.spaced
  simp only [total_append, total_cons, freeLen_free] at havail hlt
  simp only [rtMemheapSize] at htailer
  simp only [List.forall_mem_append, List.forall_mem_cons] at hold
  dsimp only at hend
  have hnew : u32 (s.startAddr + extent pre + size + rtMemheapSize) =
      s.startAddr + extent pre + 24 + size := by
    simp only [rtMemheapSize]
    rw [u32_of_lt (by omega), Nat.add_right_comm]
  have hleft : usub (usub s.availableSize size) rtMemheapSize = s.availableSize - size - 24 := by
    have hfirst : usub s.availableSize size = s.availableSize - size :=
      usub_of_le (by omega) (by omega)
    simp only [hfirst, rtMemheapSize]
    exact usub_of_le (by omega) (by omega)
  have hstop : s.startAddr + extent pre + (24 + size) + (len - (24 + size)) =
      s.startAddr + extent pre + len := by omega
  have hout : s.startAddr + extent pre + 24 + size ∉ xs ++ ys := fun hx => by
    refine h.linked.inside_notMem (x := s.startAddr + extent pre + 24 + size) (by omega)
      (by omega) ?_
    simp only [List.mem_append, List.mem_cons] at hx ⊢
    exact hx.imp_right .inr
  have hinserted := (h.linked.putItem hsize (by omega)).remove.insert
    (x := s.startAddr + extent pre + 24 + size)
    (by simp [bound_append, bound_self, Nat.add_assoc]) hout
  unfold handOut
  rw [if_pos ((h.linked.chain.handOut_cut (by omega)).mpr hroom), hnew, hleft]
  refine ⟨.of_counted (p := s.toPool) rfl (.of_parts rfl rfl hinserted.markUsed ?_ ?_) ?_ ?_, rfl⟩
  · simp only [List.forall_mem_append, List.forall_mem_cons]
    exact ⟨hold.1, fun _ => by omega, fun hu => (by cases hu), hold.2.2⟩
  · change s.availableSize - size - 24 = _
    simp only [total_append, total_cons, freeLen_used, freeLen_free]
    omega
  · simp only [startsOf_append, startsOf, Bool.true_eq_false, if_false, if_true, hstop]
    rw [Nat.add_assoc _ 24 size]
    exact (hperm.cons _).trans List.perm_middle.symm
  · refine spaced_split.mpr ⟨hpre, ?_, fun _ _ => .inr rfl, fun _ _ => .inl rfl⟩
    exact List.isChain_cons.mpr ⟨hhead, hpost⟩

/-- An item is handed out as it is. -/
theorem Blocks.handOut_whole (h : Blocks s (pre ++ ⟨len, false⟩ :: post)
    (xs ++ (s.startAddr + extent pre) :: ys)) (hroom : 24 + size ≤ len) (hmin : 12 ≤ size)
    (hshort : len < size + 60) :
    Blocks (handOut s size (s.startAddr + extent pre) (len - 24))
      (pre ++ ⟨len, true⟩ :: post) (xs ++ ys) ∧
    (handOut s size (s.startAddr + extent pre) (len - 24)).toPool = s.toPool := by
  have havail := h.avail
  have hlt := h.linked.chain.free_lt
  have hold : ∀ b ∈ pre ++ ⟨len, false⟩ :: post, b.used → 36 ≤ b.len := h.room
  have hperm := h.take_perm
  obtain ⟨hpre, hpost, -, -⟩ := spaced_split.mp h.spaced
  simp only [total_append, total_cons, freeLen_free] at havail hlt
  simp only [List.forall_mem_append, List.forall_mem_cons] at hold
  have hleft : usub s.availableSize (len - 24) = s.availableSize - (len - 24) :=
    usub_of_le (by omega) (by omega)
  unfold handOut
  rw [if_neg fun hge => Nat.not_le_of_lt hshort ((h.linked.chain.handOut_cut hroom).mp hge), hleft]
  refine ⟨.of_counted (p := s.toPool) rfl (.of_parts rfl rfl h.linked.remove.markUsed ?_ ?_) ?_ ?_,
    rfl⟩
  · simp only [List.forall_mem_append, List.forall_mem_cons]
    exact ⟨hold.1, fun _ => by omega, hold.2.2⟩
  · change s.availableSize - (len - 24) = _
    simp only [total_append, total_cons, freeLen_used]
    omega
  · simpa [startsOf_append] using hperm
  · exact spaced_split.mpr ⟨hpre, hpost, fun _ _ => .inr rfl, fun _ _ => .inl rfl⟩

/-- What a call that asks for `n` bytes of data gives: zero, and nothing has changed, or a
pointer to one more used item that has room for them. -/
def Gives (s : Memheap) (bs : List Block) (n : Nat) (t : Memheap) (ptr : Nat) : Prop :=
  ptr = 0 ∧ t = s ∨ ∃ pre len post ys, Blocks t (pre ++ ⟨len, true⟩ :: post) ys ∧
    t.toPool = s.toPool ∧ ptr = s.startAddr + extent pre + rtMemheapSize ∧ 24 + n ≤ len ∧
    (usedSpans s.startAddr (pre ++ ⟨len, true⟩ :: post)).Perm
      ((s.startAddr + extent pre, len) :: usedSpans s.startAddr bs)

theorem Blocks.handOut (h : Blocks s (pre ++ ⟨len, false⟩ :: post) xs) (hsize : 4 ∣ size)
    (hmin : 12 ≤ size) (hroom : 24 + size ≤ len) : Gives s (pre ++ ⟨len, false⟩ :: post) size
      (MemHeap.handOut s size (s.startAddr + extent pre) (len - 24))
      (s.startAddr + extent pre + rtMemheapSize) := by
  have hmem : s.startAddr + extent pre ∈ xs := h.perm.mem_iff.mpr (by simp)
  obtain ⟨xs₁, xs₂, rfl⟩ := List.append_of_mem hmem
  right
  rcases Nat.lt_or_ge len (size + 60) with hshort | hlong
  · obtain ⟨hblocks, hpool⟩ := h.handOut_whole hroom hmin hshort
    refine ⟨pre, len, post, _, hblocks, hpool, rfl, hroom, ?_⟩
    simp only [usedSpans_append, usedSpans_mk_true, usedSpans_mk_false]
    exact List.perm_middle
  · obtain ⟨hblocks, hpool⟩ := h.handOut_split hsize hmin hlong
    refine ⟨pre, 24 + size, _, _, hblocks, hpool, rfl, Nat.le_refl _, ?_⟩
    have hstop : s.startAddr + extent pre + (24 + size) + (len - (24 + size)) =
        s.startAddr + extent pre + len := by omega
    simp only [usedSpans_append, usedSpans_mk_true, usedSpans_mk_false, hstop]
    exact List.perm_middle

theorem dvd_request (size : Nat) : 4 ∣ request size := by
  have hdvd : 4 ∣ rtAlign size rtAlignSize := dvd_rtAlign size rtAlignSize
  unfold request rtMemheapMinialloc
  dsimp only
  split <;> omega

theorem le_request (size : Nat) : 12 ≤ request size := by
  unfold request rtMemheapMinialloc
  dsimp only
  split <;> omega

/-- The call returns, and it gives an item exactly if there are more free bytes than asked for,
and a free item that is long enough. -/
theorem Blocks.alloc (h : Blocks s bs xs) (size : Nat) : ∃ t ptr,
    rtMemheapAlloc s size = some (t, ptr) ∧ Gives s bs (request size) t ptr ∧
      (ptr ≠ 0 ↔ request size < s.availableSize ∧
        ∃ x ∈ startsOf false s.startAddr bs, request size ≤ memitemSize s.mem x) := by
  have hmin := le_request size
  have hdvd := dvd_request size
  unfold rtMemheapAlloc
  generalize request size = n at hmin hdvd
  dsimp only
  by_cases havail : n < s.availableSize
  · obtain ⟨headerPtr, r, hfind, hcases⟩ := @Blocks.findFree _ _ _ n h (by omega)
    rw [if_pos havail, hfind]
    rcases hcases with ⟨hr, hall⟩ | ⟨hmem, hfound, hr⟩
    · refine ⟨s, 0, ?_, .inl ⟨rfl, rfl⟩, iff_of_false (fun hne => hne rfl) ?_⟩
      · rw [Option.map_some, if_neg (Nat.not_le_of_lt hr)]
      · rintro ⟨-, x, hx, hle⟩
        exact Nat.not_le_of_lt (hall x (h.perm.mem_iff.mpr hx)) hle
    · have hfree := h.perm.mem_iff.mp hmem
      obtain ⟨pre, ⟨len, u⟩, post, rfl, rfl, rfl⟩ := mem_startsOf hfree
      have hlen := h.linked.chain.header_start.2
      have hsize := h.linked.chain.size_of
      simp only [rtMemheapSize] at hlen
      rw [hsize] at hfound
      rw [hfound] at hr ⊢
      dsimp only at hlen hr hsize ⊢
      refine ⟨_, _, ?_, h.handOut hdvd hmin (by omega), iff_of_true ?_ ⟨havail, _, hfree, ?_⟩⟩
      · rw [Option.map_some, if_pos hr]
      · simp [rtMemheapSize]
      · rw [hsize]
        exact hr
  · rw [if_neg havail]
    exact ⟨s, 0, rfl, .inl ⟨rfl, rfl⟩, iff_of_false (fun hne => hne rfl) fun hand => havail hand.1⟩

/-! ## Joining -/

theorem Chain.isUsed_start {b : Block} (h : Chain p m (pre ++ b :: post)) :
    isUsed m (p.startAddr + extent pre) = b.used := isUsed_of_node h.header_start.1

theorem Chain.isUsed_tailer (h : Chain p m bs) : isUsed m p.tailer = true := by
  obtain ⟨q, hq⟩ := h.sentinel
  exact isUsed_of_node hq

/-- Behind an item is a used one, or the end, or a free one. -/
theorem Chain.behind {b : Block} (h : Chain p m (pre ++ b :: post)) :
    isUsed m (p.startAddr + extent pre + b.len) = true ∧ (∀ c ∈ post.head?, c.used) ∨
      isUsed m (p.startAddr + extent pre + b.len) = false ∧
        ∃ l post', post = ⟨l, false⟩ :: post' := by
  rcases post with _ | ⟨⟨l, u⟩, post⟩
  · have hend := h.reaches
    simp only [extent_append, extent_cons, extent_nil, Nat.add_zero, ← Nat.add_assoc] at hend
    rw [hend]
    exact .inl ⟨h.isUsed_tailer, fun c hc => by cases hc⟩
  · have hmore : Chain p m ((pre ++ [b]) ++ ⟨l, u⟩ :: post) := by
      rw [List.append_assoc]
      exact h
    have hused := hmore.isUsed_start
    rw [extent_append, extent_cons, extent_nil, Nat.add_zero, ← Nat.add_assoc] at hused
    rw [hused]
    cases u with
    | true => exact .inl ⟨rfl, fun c hc => by obtain rfl := Option.some.inj hc; rfl⟩
    | false => exact .inr ⟨rfl, l, post, rfl⟩

/-- An item is joined with the free one behind it. -/
theorem Linked.joinNext (h : Linked p m (pre ++ ⟨k, u⟩ :: ⟨l, v⟩ :: post) xs)
    (hmem : p.startAddr + extent pre + k ∈ xs) : ∃ ys,
      xs.Perm ((p.startAddr + extent pre + k) :: ys) ∧
      Linked p (unlinkFree (mergeNext m (p.startAddr + extent pre) (p.startAddr + extent pre + k))
        (p.startAddr + extent pre + k)) (pre ++ ⟨k + l, u⟩ :: post) ys := by
  obtain ⟨xs₁, xs₂, rfl⟩ := List.append_of_mem hmem
  have hmore : Chain p m ((pre ++ [⟨k, u⟩]) ++ ⟨l, v⟩ :: post) := by
    rw [List.append_assoc]
    exact h.chain
  have hnext := hmore.next_start
  have hlen := hmore.header_start.2
  simp only [extent_append, extent_cons, extent_nil, Nat.add_zero, ← Nat.add_assoc] at hnext
  simp only [rtMemheapSize] at hlen
  refine ⟨xs₁ ++ xs₂, List.perm_middle, ?_⟩
  have hjoined := h.absorb
  rw [← Nat.add_assoc, ← hnext] at hjoined
  rw [mergeNext_eq (by omega)]
  exact hjoined

/-- The free item behind an item leaves the free list and is joined with it. -/
theorem Linked.openNext (h : Linked p m (pre ++ ⟨k, u⟩ :: ⟨l, v⟩ :: post) xs)
    (hmem : p.startAddr + extent pre + k ∈ xs) : ∃ ys,
      xs.Perm ((p.startAddr + extent pre + k) :: ys) ∧
      Linked p (unlinkItem (unlinkFree m (p.startAddr + extent pre + k))
        (p.startAddr + extent pre + k)) (pre ++ ⟨k + l, u⟩ :: post) ys := by
  obtain ⟨xs₁, xs₂, rfl⟩ := List.append_of_mem hmem
  have hunlinked := h.unlink
  have hout : p.startAddr + extent pre + k ∉ xs₁ ++ xs₂ :=
    (List.nodup_cons.mp (List.nodup_middle.mp h.nodup)).1
  have hlater : Chain p (unlinkFree m (p.startAddr + extent pre + k))
      ((pre ++ [⟨k, u⟩]) ++ ⟨l, v⟩ :: post) := by
    rw [List.append_assoc]
    exact hunlinked.chain
  have hnext := hlater.next_start
  have hprev := hlater.prev_start
  have hlen := hlater.header_start.2
  simp only [extent_append, extent_cons, extent_nil, Nat.add_zero, ← Nat.add_assoc,
    lastStart_append, lastStart_cons, lastStart_nil] at hnext hprev
  simp only [rtMemheapSize] at hlen
  refine ⟨xs₁ ++ xs₂, List.perm_middle, ?_⟩
  rw [unlinkItem_eq (by omega) (by omega), hnext, hprev, Nat.add_assoc _ k l]
  exact hunlinked.link hout

/-- `rt_memheap_free` joins with the item before if it is free. -/
theorem Counted.joinLeft (h : Counted s (pre ++ ⟨len, false⟩ :: post) xs)
    (hout : s.startAddr + extent pre ∉ xs) :
    MemHeap.joinLeft s (s.startAddr + extent pre) = (s, s.startAddr + extent pre, true) ∧
        (∀ c ∈ pre.getLast?, c.used) ∨
      ∃ first k t, pre = first ++ [⟨k, false⟩] ∧
        MemHeap.joinLeft s (s.startAddr + extent pre) = (t, s.startAddr + extent first, false) ∧
        t.toPool = s.toPool ∧ Counted t (first ++ ⟨k + len, false⟩ :: post) xs := by
  have hprev := h.linked.chain.prev_start
  unfold MemHeap.joinLeft
  rcases List.eq_nil_or_concat' pre with rfl | ⟨first, ⟨k, u⟩, rfl⟩
  · left
    rw [hprev, lastStart_nil, if_pos h.linked.chain.isUsed_tailer]
    exact ⟨rfl, fun c hc => by cases hc⟩
  · have hnext := h.linked.chain.next_start
    rw [List.append_assoc, List.singleton_append] at h
    have hlast : lastStart s.startAddr s.tailer (first ++ [⟨k, u⟩]) =
        s.startAddr + extent first := by
      simp
    rw [hprev, hlast, h.linked.chain.isUsed_start]
    cases u with
    | true => exact .inl ⟨rfl, fun c hc => by simp at hc; rw [← hc]⟩
    | false =>
      right
      have ha : s.startAddr + extent (first ++ [⟨k, false⟩]) = s.startAddr + extent first + k := by
        simp [Nat.add_assoc]
      rw [ha] at hprev hnext hout ⊢
      rw [hlast] at hprev
      dsimp only at hnext
      have hlen := h.linked.chain.header_start.2
      have hl := (tiled_append.mp h.linked.chain.tiled).2.2.2.2.1
      have hjoined := h.linked.link hout
      have havail := h.avail
      have hlt := hjoined.chain.free_lt
      have hold : ∀ b ∈ first ++ ⟨k, false⟩ :: ⟨len, false⟩ :: post, b.used → 36 ≤ b.len := h.room
      simp only [List.forall_mem_append, List.forall_mem_cons] at hold
      simp only [total_append, total_cons, freeLen_free] at havail hlt
      simp only [rtMemheapSize] at hl hlen
      have hmerged : mergePrev s.mem (s.startAddr + extent first + k) =
          link s.mem (s.startAddr + extent first) (s.startAddr + extent first + (k + len)) := by
        rw [mergePrev_eq (by omega) (by omega) (by omega), hprev, hnext, Nat.add_assoc _ k len]
      have hkept : prev (link s.mem (s.startAddr + extent first)
          (s.startAddr + extent first + (k + len))) (s.startAddr + extent first + k) =
          s.startAddr + extent first :=
        (Mem.set_ne _ _ (by omega)).trans ((Mem.set_ne _ _ (by omega)).trans hprev)
      rw [if_neg (by simp), hmerged]
      dsimp only
      rw [hkept]
      refine ⟨first, k, _, rfl, rfl, rfl, .of_parts (p := s.toPool) rfl rfl hjoined ?_ ?_⟩
      · simp only [List.forall_mem_append, List.forall_mem_cons]
        exact ⟨hold.1, fun hu => (by cases hu), hold.2.2.2⟩
      · change u32 (s.availableSize + 24) = _
        rw [u32_of_lt (by omega)]
        simp only [total_append, total_cons, freeLen_free]
        omega

/-- A free item is behind an item, or there is nothing to join it with. -/
theorem Linked.joinBehind {zs : List Nat} (h : Linked p m (pre ++ ⟨len, false⟩ :: post) xs)
    (hperm : xs.Perm (zs ++ startsOf false (p.startAddr + extent pre + len) post))
    (hspaced : Spaced post) :
    isUsed m (next m (p.startAddr + extent pre)) = true ∧ (∀ c ∈ post.head?, c.used) ∨
      ∃ l post' ys, post = ⟨l, false⟩ :: post' ∧ 24 ≤ l ∧
        isUsed m (next m (p.startAddr + extent pre)) = false ∧
        memitemSize m (next m (p.startAddr + extent pre)) = l - 24 ∧
        Linked p (unlinkFree (mergeNext m (p.startAddr + extent pre)
          (next m (p.startAddr + extent pre))) (next m (p.startAddr + extent pre)))
          (pre ++ ⟨len + l, false⟩ :: post') ys ∧
        ys.Perm (zs ++ startsOf false (p.startAddr + extent pre + (len + l)) post') ∧
        Spaced post' ∧ ∀ c ∈ post'.head?, c.used := by
  have hnext := h.chain.next_start
  rw [hnext]
  rcases h.chain.behind with hused | ⟨hfree, l, post, rfl⟩
  · exact .inl hused
  · right
    obtain ⟨ys, hys, hjoined⟩ := h.joinNext (hperm.mem_iff.mpr (by simp))
    obtain ⟨hhead, hrest⟩ := List.isChain_cons.mp hspaced
    have hmore : Chain p m ((pre ++ [⟨len, false⟩]) ++ ⟨l, false⟩ :: post) := by
      rw [List.append_assoc]
      exact h.chain
    have hsize := hmore.size_of
    have hl := hmore.header_start.2
    rw [extent_append, extent_cons, extent_nil, Nat.add_zero, ← Nat.add_assoc] at hsize
    refine ⟨l, post, ys, rfl, hl, hfree, hsize, hjoined, ?_, hrest,
      fun c hc => (hhead c hc).resolve_left (by simp)⟩
    rw [startsOf_mk_self] at hperm
    rw [← Nat.add_assoc]
    exact (hys.symm.trans (hperm.trans List.perm_middle)).cons_inv

/-- `rt_memheap_free` joins with the item behind if it is free. -/
theorem Counted.joinRight {zs : List Nat} (h : Counted s (pre ++ ⟨len, false⟩ :: post) xs)
    (hperm : xs.Perm (zs ++ startsOf false (s.startAddr + extent pre + len) post))
    (hspaced : Spaced post) : ∃ len' post' ys,
      Counted (MemHeap.joinRight s (s.startAddr + extent pre)) (pre ++ ⟨len', false⟩ :: post') ys ∧
      (MemHeap.joinRight s (s.startAddr + extent pre)).toPool = s.toPool ∧
      ys.Perm (zs ++ startsOf false (s.startAddr + extent pre + len') post') ∧
      usedSpans (s.startAddr + extent pre + len') post' =
        usedSpans (s.startAddr + extent pre + len) post ∧
      Spaced post' ∧ ∀ c ∈ post'.head?, c.used := by
  have hlen := h.linked.chain.header_start.2
  unfold MemHeap.joinRight
  dsimp only
  rcases h.linked.joinBehind hperm hspaced with
    ⟨hused, hhead⟩ | ⟨l, post, ys, rfl, hl, hfree, -, hjoined, hys, hrest, hhead⟩
  · rw [if_pos hused]
    exact ⟨len, post, xs, h, rfl, hperm, rfl, hspaced, hhead⟩
  · rw [if_neg (by simp [hfree])]
    have havail := h.avail
    have hlt := hjoined.chain.free_lt
    have hold : ∀ b ∈ pre ++ ⟨len, false⟩ :: ⟨l, false⟩ :: post, b.used → 36 ≤ b.len := h.room
    simp only [List.forall_mem_append, List.forall_mem_cons] at hold
    simp only [total_append, total_cons, freeLen_free] at havail hlt
    simp only [rtMemheapSize] at hlen
    refine ⟨len + l, post, ys, .of_parts (p := s.toPool) rfl rfl hjoined ?_ ?_, rfl, hys, ?_, hrest,
      hhead⟩
    · simp only [List.forall_mem_append, List.forall_mem_cons]
      exact ⟨hold.1, fun hu => (by cases hu), hold.2.2.2⟩
    · change u32 (s.availableSize + 24) = _
      rw [u32_of_lt (by omega)]
      simp only [total_append, total_cons, freeLen_free]
      omega
    · rw [← Nat.add_assoc, usedSpans_mk_false]

/-- `rt_memheap_realloc` joins what it has cut off with the item behind if it is free; it is not
counted yet. -/
theorem Linked.joinRest {zs : List Nat}
    (h : Linked s.toPool s.mem (pre ++ ⟨len, false⟩ :: post) xs)
    (havail : s.availableSize = total freeLen pre + total freeLen post)
    (hperm : xs.Perm (zs ++ startsOf false (s.startAddr + extent pre + len) post))
    (hspaced : Spaced post) : ∃ len' post' ys,
      Linked s.toPool (MemHeap.joinRest s (s.startAddr + extent pre)).mem
        (pre ++ ⟨len', false⟩ :: post') ys ∧
      (MemHeap.joinRest s (s.startAddr + extent pre)).toPool = s.toPool ∧
      (MemHeap.joinRest s (s.startAddr + extent pre)).availableSize =
        total freeLen pre + total freeLen post' ∧
      ys.Perm (zs ++ startsOf false (s.startAddr + extent pre + len') post') ∧
      usedSpans (s.startAddr + extent pre + len') post' =
        usedSpans (s.startAddr + extent pre + len) post ∧
      Spaced post' ∧ (∀ c ∈ post'.head?, c.used) ∧ ∀ b ∈ post', b ∈ post := by
  have hlt := h.chain.free_lt
  unfold MemHeap.joinRest
  dsimp only
  rcases h.joinBehind hperm hspaced with
    ⟨hused, hhead⟩ | ⟨l, post, ys, rfl, hl, hfree, hsize, hjoined, hys, hrest, hhead⟩
  · rw [if_pos hused]
    exact ⟨len, post, xs, h, rfl, havail, hperm, rfl, hspaced, hhead, fun b hb => hb⟩
  · rw [if_neg (by simp [hfree]), hsize]
    simp only [total_append, total_cons, freeLen_free] at havail hlt
    refine ⟨len + l, post, ys, hjoined, rfl, ?_, hys, ?_, hrest, hhead,
      fun b hb => List.mem_cons_of_mem _ hb⟩
    · change usub s.availableSize (l - 24) = _
      rw [usub_of_le (by omega) (by omega)]
      omega
    · rw [← Nat.add_assoc, usedSpans_mk_false]

theorem Chain.start_notMem {b : Block} {u : Bool} (h : Chain p m (pre ++ b :: post)) :
    p.startAddr + extent pre ∉ startsOf u p.startAddr pre ++
      startsOf u (p.startAddr + extent pre + b.len) post := fun hx => by
  have hpos := h.pos
  have hb := hpos b (List.mem_append_right _ List.mem_cons_self)
  rcases List.mem_append.mp hx with hx | hx
  · have hlt := lt_of_mem_startsOf (fun c hc => hpos c (List.mem_append_left _ hc)) hx
    exact Nat.lt_irrefl _ hlt
  · have hge := ge_of_mem_startsOf hx
    omega

/-- An item is put in front of the free list. -/
theorem Counted.insert (h : Counted s bs xs) (hx : Bound s.startAddr bs x) (hout : x ∉ xs) :
    Counted { s with mem := insertFree s.mem x s.freeList } bs (x :: xs) :=
  ⟨h.linked.insert hx hout, h.room, h.avail⟩

/-- A used item is given back. -/
theorem Blocks.takeBack (h : Blocks s (pre ++ ⟨len, true⟩ :: post) xs) : ∃ bs ys,
    Blocks (MemHeap.takeBack s (s.startAddr + extent pre)) bs ys ∧
      (MemHeap.takeBack s (s.startAddr + extent pre)).toPool = s.toPool ∧
      (usedSpans s.startAddr (pre ++ ⟨len, true⟩ :: post)).Perm
        ((s.startAddr + extent pre, len) :: usedSpans s.startAddr bs) := by
  have hout := h.used_notMem
  have hperm := h.perm
  have hmarked := h.linked.markFree
  have havail := h.avail
  have hlt := hmarked.chain.free_lt
  have hold : ∀ b ∈ pre ++ ⟨len, true⟩ :: post, b.used → 36 ≤ b.len := h.room
  obtain ⟨hpre, hpost, -, -⟩ := spaced_split.mp h.spaced
  rw [startsOf_append, startsOf_cons_ne (by simp)] at hperm
  simp only [List.forall_mem_append, List.forall_mem_cons] at hold
  simp only [total_append, total_cons, freeLen_used, freeLen_free] at havail hlt
  unfold MemHeap.takeBack
  dsimp only
  rw [hmarked.chain.size_of]
  dsimp only
  generalize hs₁ : ({ s with
    mem := setMagic s.mem (s.startAddr + extent pre)
      (magic s.mem (s.startAddr + extent pre) &&& rtMemheapMask)
    availableSize := u32 (s.availableSize + (len - 24)) } : Memheap) = s₁
  have hpool : s₁.toPool = s.toPool := hs₁ ▸ rfl
  have hcounted : Counted s₁ (pre ++ ⟨len, false⟩ :: post) xs := by
    subst hs₁
    refine .of_parts (p := s.toPool) rfl rfl hmarked ?_ ?_
    · simp only [List.forall_mem_append, List.forall_mem_cons]
      exact ⟨hold.1, fun hu => (by cases hu), hold.2.2⟩
    · change u32 (s.availableSize + (len - 24)) = _
      rw [u32_of_lt (by omega)]
      simp only [total_append, total_cons, freeLen_free]
      omega
  have hstart : s₁.startAddr = s.startAddr := congrArg Pool.startAddr hpool
  rw [← hstart] at hout hperm ⊢
  rcases hcounted.joinLeft hout with ⟨hjoin, hlast⟩ | ⟨first, k, t, rfl, hjoin, hpool', hc⟩
  · rw [hjoin]
    dsimp only
    obtain ⟨len', post', ys, hc, hpool', hys, hused, hspaced, hhead⟩ :=
      hcounted.joinRight hperm hpost
    rw [if_pos rfl]
    generalize MemHeap.joinRight s₁ (s₁.startAddr + extent pre) = t at hc hpool' ⊢
    have hstart' : t.startAddr = s₁.startAddr := congrArg Pool.startAddr hpool'
    have hnot : s₁.startAddr + extent pre ∉ ys := fun hy => by
      have hy := hys.mem_iff.mp hy
      rw [← hstart'] at hy
      exact hc.linked.chain.start_notMem hy
    have hinserted := hc.insert (x := s₁.startAddr + extent pre) (by
      rw [hstart', bound_append]
      exact .inr bound_self) hnot
    refine ⟨_, _, .of_counted (p := s₁.toPool) hpool' hinserted ?_ ?_, hpool'.trans hpool, ?_⟩
    · rw [startsOf_append, startsOf_mk_self]
      exact (hys.cons _).trans List.perm_middle.symm
    · exact spaced_split.mpr ⟨hpre, hspaced, fun c hc => .inl (hlast c hc),
        fun c hc => .inr (hhead c hc)⟩
    · simp only [usedSpans_append, usedSpans_mk_true, usedSpans_mk_false, hused]
      exact List.perm_middle
  · have hstart' : t.startAddr = s₁.startAddr := congrArg Pool.startAddr hpool'
    obtain ⟨hfirst, -, hlast, -⟩ := spaced_split.mp hpre
    rw [← hstart', startsOf_append, startsOf_mk_self, startsOf_nil, extent_append, extent_cons,
      extent_nil, Nat.add_zero, ← Nat.add_assoc, Nat.add_assoc _ k len] at hperm
    rw [hjoin]
    dsimp only
    rw [← hstart'] at hjoin ⊢
    obtain ⟨len', post', ys, hc, hpool'', hys, hused, hspaced, hhead⟩ := hc.joinRight hperm hpost
    rw [if_neg (by simp)]
    refine ⟨_, _, .of_counted (p := t.toPool) hpool'' hc ?_ ?_,
      hpool''.trans (hpool'.trans hpool), ?_⟩
    · rw [startsOf_append, startsOf_mk_self]
      simpa using hys
    · exact spaced_split.mpr ⟨hfirst, hspaced, hlast, fun c hc => .inr (hhead c hc)⟩
    · simp only [usedSpans_append, usedSpans_mk_true, usedSpans_mk_false, usedSpans_nil, hused,
        extent_append, extent_cons, extent_nil, Nat.add_zero, List.append_nil, ← Nat.add_assoc]
      exact List.perm_middle

theorem Chain.isItem_bound (h : Chain p m bs) (hx : Bound p.startAddr bs x) :
    isItem m x = true := by
  rcases hx.cases with rfl | ⟨pre, b, post, rfl, rfl⟩
  · obtain ⟨q, hq⟩ := h.sentinel
    rw [h.reaches]
    exact isItem_of_node hq
  · exact isItem_of_node h.header_start.1

/-- The header of a pointer. -/
theorem Chain.header_of {b : Block} (h : Chain p m (pre ++ b :: post)) :
    usub (p.startAddr + extent pre + rtMemheapSize) rtMemheapSize = p.startAddr + extent pre := by
  have hend := h.end_le
  have htailer := h.tailer_lt.1
  have hlen := h.header_start.2
  simp only [rtMemheapSize] at htailer hlen ⊢
  rw [usub_of_le (by omega) (by omega), Nat.add_sub_cancel]

/-- The call returns for the pointer of a used item. -/
theorem Blocks.free (h : Blocks s bs xs) (hx : (x, len) ∈ usedSpans s.startAddr bs) : ∃ t bs' ys,
    rtMemheapFree s (x + rtMemheapSize) = some t ∧ Blocks t bs' ys ∧ t.toPool = s.toPool ∧
      (usedSpans s.startAddr bs).Perm ((x, len) :: usedSpans s.startAddr bs') := by
  obtain ⟨pre, post, rfl, rfl⟩ := mem_usedSpans hx
  have hnode := h.linked.chain.header_start.1
  have hbehind : isItem s.mem (next s.mem (s.startAddr + extent pre)) = true := by
    rw [h.linked.chain.next_start]
    exact h.linked.chain.isItem_bound (by simp [bound_append, bound_self])
  obtain ⟨bs', ys, hblocks, hpool, hperm⟩ := h.takeBack
  refine ⟨_, bs', ys, ?_, hblocks, hpool, hperm⟩
  unfold rtMemheapFree
  rw [if_neg (by simp [rtMemheapSize]), h.linked.chain.header_of]
  exact if_pos ⟨isItem_of_node hnode, isUsed_of_node hnode, hbehind,
    (node_eq_some_iff.mp hnode).2.1⟩

/-! ## Resizing -/

/-- An item grows into the free one behind it. -/
theorem Blocks.grow (h : Blocks s (pre ++ ⟨len, true⟩ :: ⟨l, false⟩ :: post) xs) (hn : 4 ∣ n)
    (hlong : len - 24 < n) (hroom : n + 60 < len + l) : ∃ ys,
    Blocks (MemHeap.grow s (s.startAddr + extent pre + rtMemheapSize) (s.startAddr + extent pre)
        (len - 24) n) (pre ++ ⟨24 + n, true⟩ :: ⟨len + l - (24 + n), false⟩ :: post) ys ∧
      (MemHeap.grow s (s.startAddr + extent pre + rtMemheapSize) (s.startAddr + extent pre)
        (len - 24) n).toPool = s.toPool := by
  have hmore : Chain s.toPool s.mem ((pre ++ [⟨len, true⟩]) ++ ⟨l, false⟩ :: post) := by
    rw [List.append_assoc]
    exact h.linked.chain
  have hend := hmore.end_le
  have htailer := hmore.tailer_lt.1
  have hlen := h.linked.chain.header_start.2
  have hl := hmore.header_start.2
  have havail := h.avail
  have hlt := h.linked.chain.free_lt
  have hold : ∀ b ∈ pre ++ ⟨len, true⟩ :: ⟨l, false⟩ :: post, b.used → 36 ≤ b.len := h.room
  obtain ⟨hpre, hrest, hlast, -⟩ := spaced_split.mp h.spaced
  obtain ⟨hhead, hpost⟩ := List.isChain_cons.mp hrest
  have hperm := h.perm
  have hmem : s.startAddr + extent pre + len ∈ xs := hperm.mem_iff.mpr (by simp [startsOf_append])
  obtain ⟨ys, hys, hjoined⟩ := h.linked.openNext hmem
  simp only [List.forall_mem_append, List.forall_mem_cons] at hold
  simp only [total_append, total_cons, freeLen_free, freeLen_used] at havail hlt
  have hfirst := hold.2.1 trivial
  simp only [rtMemheapSize] at htailer hl hlen
  simp only [extent_append, extent_cons, extent_nil, Nat.add_zero] at hend
  have hinside := hjoined.inside_notMem (x := s.startAddr + extent pre + 24 + n) (by omega)
    (by omega)
  have hinserted := (hjoined.putItem hn (by omega)).insert
    (x := s.startAddr + extent pre + 24 + n)
    (by simp [bound_append, bound_self, Nat.add_assoc]) hinside
  have hnew : u32 (s.startAddr + extent pre + rtMemheapSize + n) =
      s.startAddr + extent pre + 24 + n := u32_of_lt (by
    simp only [rtMemheapSize]
    omega)
  have hleft : usub s.availableSize (usub n (len - 24)) = s.availableSize - (n - (len - 24)) := by
    have hmore : usub n (len - 24) = n - (len - 24) := usub_of_le (by omega) (by omega)
    rw [hmore]
    exact usub_of_le (by omega) (by omega)
  unfold MemHeap.grow
  rw [hnew, hleft, h.linked.chain.next_start]
  dsimp only
  change ∃ ys, Blocks { s.leave (s.availableSize - (n - (len - 24))) with
    mem := insertFree (putItem (unlinkItem (unlinkFree s.mem (s.startAddr + extent pre + len))
      (s.startAddr + extent pre + len)) s.self (s.startAddr + extent pre)
      (s.startAddr + extent pre + 24 + n)) (s.startAddr + extent pre + 24 + n) s.freeList } _ ys ∧ _
  refine ⟨_, .of_counted (p := s.toPool) rfl (.of_parts rfl rfl hinserted ?_ ?_) ?_ ?_, rfl⟩
  · simp only [List.forall_mem_append, List.forall_mem_cons]
    exact ⟨hold.1, fun _ => by omega, fun hu => (by cases hu), hold.2.2.2⟩
  · change s.availableSize - (n - (len - 24)) = _
    simp only [total_append, total_cons, freeLen_used, freeLen_free]
    omega
  · have hstop : s.startAddr + extent pre + (24 + n) + (len + l - (24 + n)) =
        s.startAddr + extent pre + len + l := by omega
    simp only [startsOf_append, startsOf, Bool.true_eq_false, if_false, if_true, hstop] at hperm ⊢
    rw [Nat.add_assoc _ 24 n]
    have hold := (hys.symm.trans (hperm.trans List.perm_middle)).cons_inv
    exact (hold.cons _).trans List.perm_middle.symm
  · refine spaced_split.mpr ⟨hpre, ?_, hlast, fun _ _ => .inl rfl⟩
    exact List.isChain_cons.mpr ⟨hhead, hpost⟩

/-- What is cut off an item becomes a free one. -/
theorem Blocks.shrink (h : Blocks s (pre ++ ⟨len, true⟩ :: post) xs) (hn : 4 ∣ n) (hmin : 12 ≤ n)
    (hroom : n + 60 < len) : ∃ len' post' ys,
    Blocks (MemHeap.shrink s (s.startAddr + extent pre) n)
        (pre ++ ⟨24 + n, true⟩ :: ⟨len', false⟩ :: post') ys ∧
      (MemHeap.shrink s (s.startAddr + extent pre) n).toPool = s.toPool ∧
      usedSpans (s.startAddr + extent pre + (24 + n) + len') post' =
        usedSpans (s.startAddr + extent pre + len) post := by
  have hend := h.linked.chain.end_le
  have htailer := h.linked.chain.tailer_lt.1
  have havail := h.avail
  have hold : ∀ b ∈ pre ++ ⟨len, true⟩ :: post, b.used → 36 ≤ b.len := h.room
  have hperm := h.perm
  have hinside := h.linked.inside_notMem (x := s.startAddr + extent pre + (24 + n))
  have hput := h.linked.putItem hn (by omega)
  obtain ⟨hpre, hpost, hlast, -⟩ := spaced_split.mp h.spaced
  dsimp only at hend
  simp only [rtMemheapSize] at htailer
  simp only [List.forall_mem_append, List.forall_mem_cons] at hold
  simp only [total_append, total_cons, freeLen_used, Nat.zero_add] at havail
  have hnew : u32 (s.startAddr + extent pre + n + rtMemheapSize) =
      s.startAddr + extent pre + 24 + n := by
    simp only [rtMemheapSize]
    rw [u32_of_lt (by omega), Nat.add_right_comm]
  have hstop : s.startAddr + extent pre + (24 + n) + (len - (24 + n)) =
      s.startAddr + extent pre + len := by omega
  have hstart : s.startAddr + extent pre + 24 + n =
      s.startAddr + extent (pre ++ [⟨24 + n, true⟩]) := by simp [Nat.add_assoc]
  have hcount : s.availableSize = total freeLen (pre ++ [⟨24 + n, true⟩]) + total freeLen post := by
    simpa [total_append] using havail
  have hlist : xs.Perm (startsOf false s.startAddr pre ++
      startsOf false (s.startAddr + extent (pre ++ [⟨24 + n, true⟩]) + (len - (24 + n))) post) := by
    rw [startsOf_append, startsOf_cons_ne (by simp)] at hperm
    rw [← hstart, Nat.add_assoc _ 24 n, hstop]
    exact hperm
  rw [List.append_cons] at hput
  unfold MemHeap.shrink
  rw [hnew, hstart]
  rw [hstart] at hput
  dsimp only
  generalize MemHeap.putItem s.mem s.self (s.startAddr + extent pre) _ = m at hput ⊢
  obtain ⟨len', post', ys, hlinked, hpool, hcount, hys, hused, hspaced, hhead, hsub⟩ :=
    Linked.joinRest (s := { s with mem := m }) hput hcount hlist hpost
  dsimp only at hlinked hpool hcount hys hused
  generalize MemHeap.joinRest _ _ = t at hlinked hpool hcount ⊢
  have hnot : s.startAddr + extent (pre ++ [⟨24 + n, true⟩]) ∉ ys := fun hy => by
    refine hlinked.chain.start_notMem (u := false) ?_
    rw [startsOf_append, startsOf_cons_ne (by simp), startsOf_nil, List.append_nil]
    exact hys.mem_iff.mp hy
  have hinserted := hlinked.insert (by rw [bound_append]; exact .inr bound_self) hnot
  have hsize := hinserted.chain.size_of
  have hfree : t.freeList = s.freeList := congrArg Pool.freeList hpool
  have hlt := hlinked.chain.free_lt
  dsimp only at hsize
  rw [hfree, hsize]
  simp only [total_append, total_cons, total_nil, freeLen_used, freeLen_free,
    Nat.add_zero] at hcount hlt
  rw [List.append_assoc, List.singleton_append] at hinserted
  refine ⟨len', post', _, .of_counted (p := s.toPool) hpool
    (.of_parts hpool rfl hinserted ?_ ?_) ?_ ?_, hpool, ?_⟩
  · simp only [List.forall_mem_append, List.forall_mem_cons]
    exact ⟨hold.1, fun _ => by omega, fun hu => (by cases hu), fun b hb => hold.2.2 b (hsub b hb)⟩
  · change u32 (t.availableSize + (len' - 24)) = _
    rw [u32_of_lt (by omega)]
    simp only [total_append, total_cons, freeLen_used, freeLen_free]
    omega
  · rw [startsOf_append, startsOf_cons_ne (by simp), startsOf_mk_self]
    rw [← hstart, Nat.add_assoc _ 24 n] at hys ⊢
    exact (hys.cons _).trans List.perm_middle.symm
  · refine spaced_split.mpr ⟨hpre, ?_, hlast, fun _ _ => .inl rfl⟩
    exact List.isChain_cons.mpr ⟨fun c hc => .inr (hhead c hc), hspaced⟩
  · rw [← hstart, Nat.add_assoc _ 24 n] at hused
    rw [hused, hstop]

end

end ControlRTT.Kernel.MemHeap

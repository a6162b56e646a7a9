import ControlRTT.Kernel.MemHeapCalls

/-! # A new memory heap, and resizing

`rt_memheap_init` gives the first list of items. `rt_memheap_realloc` resizes an item in place
or moves its data to another one. Growing in place is right as long as the size that is asked
for, with the least item that has to remain, is a number of 32 bits. -/
namespace ControlRTT.Kernel.MemHeap
open ControlRTT.Kernel.RtDef ControlRTT.Lib.CInt ControlRTT.Lib.LinkedRing ControlRTT.Lib.Tiling
  ControlRTT.Lib.WordMem

/-! ## A new heap -/

/-- What `rt_memheap_init` is given: a pool with room for two headers and the least item, and a
heap object that is not in it. -/
structure Region where
  mem : Mem
  memheap : Nat
  freeHeader : Nat
  startAddr : Nat
  size : Nat
  room : 2 * rtMemheapSize + rtMemheapMinialloc ≤ size
  size_lt : size < 2 ^ 32
  fits : startAddr + size ≤ 2 ^ 32
  outside : freeHeader + rtMemheapSize ≤ startAddr ∨ startAddr + size ≤ freeHeader

/-- A pool of 256 bytes behind its heap object. -/
def smallRegion : Region where
  mem := fun _ => 0
  memheap := 0x1000
  freeHeader := 0x1028
  startAddr := 0x2000
  size := 256
  room := by decide
  size_lt := by decide
  fits := by decide
  outside := .inl (by decide)

/-- The heap in its first state. -/
def Region.heap (r : Region) : Memheap :=
  rtMemheapInit r.mem r.memheap r.freeHeader r.startAddr r.size

theorem Region.poolSize (r : Region) : 4 ∣ r.heap.poolSize ∧ 60 ≤ r.heap.poolSize ∧
    r.heap.poolSize ≤ r.size := by
  have hroom := r.room
  have hdvd := dvd_rtAlignDown r.size rtAlignSize
  have hle := rtAlignDown_le r.size rtAlignSize
  change 4 ∣ rtAlignDown r.size rtAlignSize ∧ 60 ≤ rtAlignDown r.size rtAlignSize ∧ _
  simp only [rtMemheapSize, rtMemheapMinialloc] at hroom
  refine ⟨hdvd, ?_, hle⟩
  unfold rtAlignDown rtAlignSize
  omega

/-- The first item is put into an empty free list, and the header at the end is written. -/
theorem linked_init {p : Pool} {m : Mem}
    (hfirst : node p.self m p.startAddr = some ⟨false, p.tailer, p.tailer⟩)
    (hring : Ring (nextFree m) (prevFree m) p.freeList []) (hwords : 4 ∣ p.poolSize)
    (hroom : 60 ≤ p.poolSize) (hfits : p.startAddr + p.poolSize ≤ 2 ^ 32)
    (houtside : p.freeList + rtMemheapSize ≤ p.startAddr ∨
      p.startAddr + p.poolSize ≤ p.freeList) :
    Linked p (setPrevFree (setNextFree (setPrev (setNext (setPoolPtr (setMagic
        (insertFree m p.startAddr p.freeList) p.tailer (rtMemheapMagic ||| rtMemheapUsed)) p.tailer
        p.self) p.tailer p.startAddr) p.tailer p.startAddr) p.tailer 0) p.tailer 0)
      [⟨p.poolSize - rtMemheapSize, false⟩] [p.startAddr] := by
  have hall : AllApart p.freeList [p.startAddr] := by
    simp only [rtMemheapSize] at houtside
    refine ⟨by simp only [List.nodup_cons, List.mem_singleton, List.not_mem_nil,
      not_false_eq_true, List.nodup_nil, and_self, and_true]; omega, fun y hy z hz => ?_⟩
    simp only [List.mem_cons, List.not_mem_nil, or_false] at hy hz
    simp only [Apart, rtMemheapSize]
    omega
  have hinserted := insertFree_ring hring hall
  have hnode := insertFree_node (z := p.startAddr) hring hall (fun y hy => ?_) p.self
  · rw [hfirst] at hnode
    generalize insertFree m p.startAddr p.freeList = m₁ at hinserted hnode
    have htailer : p.tailer = p.startAddr + (p.poolSize - 24) := rfl
    simp only [rtMemheapSize] at houtside ⊢
    refine ⟨⟨⟨?_, ?_, trivial⟩, ?_, ⟨p.startAddr, ?_⟩, ?_, hfits, ?_, houtside⟩,
      Ring.same hinserted fun y hy => ?_, List.nodup_singleton _, ?_⟩
    · unfold setMagic setPoolPtr setNext setPrev setNextFree setPrevFree
      rw [node_set_ne _ (by omega), node_set_ne _ (by omega), node_set_ne _ (by omega),
        node_set_ne _ (by omega), node_set_ne _ (by omega), node_set_ne _ (by omega), hnode]
      rfl
    · simp only [rtMemheapSize]
      omega
    · rw [extent_cons, extent_nil, htailer, Nat.add_zero]
    · unfold setMagic setPoolPtr setNext setPrev setNextFree setPrevFree
      rw [node_eq_some_iff]
      simp (disch := omega) only [Mem.set_ne, Mem.set_self]
      exact ⟨magic_or_used false, trivial, trivial, trivial⟩
    · simp only [List.mem_singleton, forall_eq]
      omega
    · simp only [rtMemheapSize]
      omega
    · have hfar : y + 24 ≤ p.tailer ∨ p.tailer + 24 ≤ y := by
        simp only [List.mem_cons, List.not_mem_nil, or_false] at hy
        omega
      unfold setMagic setPoolPtr setNext setPrev setNextFree setPrevFree SameLinks nextFree prevFree
      simp (disch := omega) only [Mem.set_ne, and_self]
    · simp only [List.mem_singleton, forall_eq]
      exact bound_self
  · exact hall.2 y (by simpa using hy) _ (by simp)

/-- One free item covers the pool. -/
theorem Region.blocks (r : Region) :
    Blocks r.heap [⟨r.heap.poolSize - rtMemheapSize, false⟩] [r.startAddr] := by
  obtain ⟨hdvd, hmin, hle⟩ := r.poolSize
  have hfits := r.fits
  have hlt := r.size_lt
  have houtside := r.outside
  simp only [rtMemheapSize] at houtside
  have hpool : rtAlignDown r.size rtAlignSize = r.heap.poolSize := rfl
  generalize r.heap.poolSize = P at hdvd hmin hle hpool ⊢
  have havail : usub P (2 * rtMemheapSize) = P - 48 := by
    simp only [rtMemheapSize]
    exact usub_of_le (by omega) (by omega)
  have htailer : u32 (r.startAddr + (P - 48) + rtMemheapSize) = r.startAddr + (P - 24) := by
    simp only [rtMemheapSize]
    rw [u32_of_lt (by omega)]
    omega
  unfold Region.heap rtMemheapInit
  dsimp only
  rw [hpool, havail, htailer]
  refine .of_counted (p := ⟨r.memheap, r.startAddr, P, r.freeHeader⟩) rfl
    (.of_parts rfl rfl (linked_init ?_ ?_ hdvd hmin (by dsimp only; omega)
      (by simp only [rtMemheapSize]; omega)) ?_ ?_) ?_ ?_
  · unfold setMagic setPoolPtr setNext setPrev setNextFree setPrevFree Pool.tailer
    rw [node_eq_some_iff]
    simp (disch := omega) only [Mem.set_ne, Mem.set_self, rtMemheapSize]
    exact ⟨rfl, trivial, trivial, trivial⟩
  · refine List.isChain_pair.mpr ⟨?_, ?_⟩
    · unfold setMagic setPoolPtr setNext setPrev setNextFree setPrevFree nextFree
      simp (disch := omega) only [Mem.set_ne, Mem.set_self]
    · unfold setMagic setPoolPtr setNext setPrev setNextFree setPrevFree prevFree
      simp (disch := omega) only [Mem.set_ne, Mem.set_self]
  · simp
  · simp [rtMemheapSize]
    omega
  · simp
  · exact .singleton _

/-! ## Resizing -/

/-- What a call that asks for `n` bytes for the data of the item at `x`, of length `len`, gives:
zero, and nothing has changed, or a pointer to an item that is in its place in the list of used
ones. -/
def Resizes (s : Memheap) (bs : List Block) (x len n : Nat) (t : Memheap) (ptr : Nat) : Prop :=
  ptr = 0 ∧ t = s ∨ ∃ y l bs' ys, Blocks t bs' ys ∧ t.toPool = s.toPool ∧
    ptr = y + rtMemheapSize ∧ 24 + n ≤ l ∧ (y, l) ∈ usedSpans s.startAddr bs' ∧
    ((x, len) :: usedSpans s.startAddr bs').Perm ((y, l) :: usedSpans s.startAddr bs)

section
variable {s t : Memheap} {m : Mem} {pre post bs : List Block} {xs : List Nat}
  {l len x n k ptr : Nat}

/-- Sizes are 32 bits wide: what is asked for is a size again. -/
theorem request_lt (size : Nat) : request size < 2 ^ 32 := by
  unfold request rtAlign rtAlignDown rtAlignSize rtMemheapMinialloc u32
  dsimp only
  split <;> omega

theorem request_of_aligned (hdvd : 4 ∣ n) (hmin : 12 ≤ n) (hlt : n < 2 ^ 32) : request n = n := by
  have hsum : u32 (n + 4 - 1) = n + 3 := u32_of_lt (by omega)
  unfold request rtAlign rtAlignDown rtAlignSize rtMemheapMinialloc
  rw [hsum]
  dsimp only
  split <;> omega

theorem request_request (size : Nat) : request (request size) = request size :=
  request_of_aligned (dvd_request size) (le_request size) (request_lt size)

/-- The data of a used item is its owner's. -/
theorem Blocks.data (h : Blocks s (pre ++ ⟨len, true⟩ :: post) xs)
    (hdata : ∀ x, x < s.startAddr + extent pre + 24 ∨ s.startAddr + extent pre + len ≤ x →
      m x = s.mem x) : Blocks { s with mem := m } (pre ++ ⟨len, true⟩ :: post) xs :=
  .of_counted (p := s.toPool) rfl (.of_parts rfl rfl (h.linked.data hdata) h.room h.avail) h.perm
    h.spaced

/-- Two used items do not begin in one place. -/
theorem Chain.usedSpans_nodup {p : Pool} (h : Chain p m bs) : (usedSpans p.startAddr bs).Nodup := by
  refine List.Nodup.of_map Prod.fst ?_
  rw [map_fst_usedSpans]
  exact (startsOf_ordered h.pos true p.startAddr).imp fun hlt => Nat.ne_of_lt hlt

/-- The data is moved to another item. -/
theorem Blocks.move (h : Blocks s bs xs) (hx : (x, len) ∈ usedSpans s.startAddr bs) (old : Nat)
    (hn : request n = n) : ∃ t ptr, MemHeap.move s (x + rtMemheapSize) old n = some (t, ptr) ∧
      Resizes s bs x len n t ptr := by
  obtain ⟨u, ptr, halloc, hgives, -⟩ := h.alloc n
  rw [hn] at hgives
  unfold MemHeap.move
  rw [halloc, Option.bind_some]
  dsimp only
  rcases hgives with ⟨rfl, rfl⟩ | ⟨pre, l, post, ys, hblocks, hpool, rfl, hl, hperm⟩
  · exact ⟨u, 0, if_neg fun hne => hne rfl, .inl ⟨rfl, rfl⟩⟩
  · have hstart : u.startAddr = s.startAddr := congrArg Pool.startAddr hpool
    have hk : (if old < n then old else n) ≤ n := by split <;> omega
    generalize (if old < n then old else n) = k at hk
    have hcopied := hblocks.data (m := copy u.mem (s.startAddr + extent pre + rtMemheapSize)
      (x + rtMemheapSize) k) fun y hy => if_neg (by
        simp only [hstart, rtMemheapSize] at hy ⊢
        omega)
    unfold Resizes
    rw [← hstart] at hperm hx hcopied ⊢
    have hmem := hperm.mem_iff.mpr (List.mem_cons_of_mem _ hx)
    obtain ⟨t, bs', ys', hfree, hb, hpool', hrest⟩ := hcopied.free hmem
    rw [if_pos (by simp [rtMemheapSize]), hfree]
    refine ⟨t, _, rfl, .inr ⟨_, l, bs', ys', hb, hpool'.trans hpool, rfl, hl, ?_, ?_⟩⟩
    · have hmem := hrest.mem_iff.mp (hperm.mem_iff.mpr List.mem_cons_self)
      refine (List.mem_cons.mp hmem).resolve_left fun heq => ?_
      have hnodup := hperm.nodup_iff.mp hblocks.linked.chain.usedSpans_nodup
      exact (List.nodup_cons.mp hnodup).1 (heq ▸ hx)
    · exact hrest.symm.trans hperm

/-- An item that stays where it is. -/
theorem Resizes.inPlace {bs' : List Block} {ys : List Nat} (us vs : List (Nat × Nat))
    (h : Blocks t bs' ys) (hpool : t.toPool = s.toPool) (hn : 24 + n ≤ l)
    (hold : usedSpans s.startAddr bs = us ++ (x, len) :: vs)
    (hnew : usedSpans s.startAddr bs' = us ++ (x, l) :: vs) :
    Resizes s bs x len n t (x + rtMemheapSize) := by
  refine .inr ⟨x, l, bs', ys, h, hpool, rfl, hn, ?_, ?_⟩
  · rw [hnew]
    simp
  · rw [hold, hnew]
    exact (List.perm_middle.cons _).trans
      ((List.Perm.swap _ _ _).trans (List.perm_middle.symm.cons _))

theorem Chain.size_behind {p : Pool} {a b : Block} (h : Chain p m (pre ++ a :: b :: post)) :
    memitemSize m (p.startAddr + extent pre + a.len) = b.len - 24 := by
  have hmore : Chain p m ((pre ++ [a]) ++ b :: post) := by
    rw [List.append_assoc]
    exact h
  have hsize := hmore.size_of
  rwa [extent_append, extent_cons, extent_nil, Nat.add_zero, ← Nat.add_assoc] at hsize

/-- An item with a free one behind it grows if there is room, or if the sum is not one of 32
bits. -/
theorem Chain.canGrow {p : Pool} {u : Bool}
    (h : Chain p m (pre ++ ⟨len, u⟩ :: ⟨l, false⟩ :: post)) (hlong : 36 ≤ len) (hn : n < 2 ^ 32) :
    CanGrow m (p.startAddr + extent pre) (len - 24) n ↔ n + 60 < len + l ∨ 2 ^ 32 ≤ n + 12 := by
  have hlen := h.header_start.2
  have hmore : Chain p m ((pre ++ [⟨len, u⟩]) ++ ⟨l, false⟩ :: post) := by
    rw [List.append_assoc]
    exact h
  have hl := hmore.header_start.2
  have hend := hmore.end_le
  have hused := hmore.isUsed_start
  have htailer := hmore.tailer_lt.1
  have hsize := h.size_behind
  simp only [rtMemheapSize] at hlen hl htailer
  simp only [extent_append, extent_cons, extent_nil, Nat.add_zero, ← Nat.add_assoc] at hused hend
  dsimp only at hsize hend
  unfold CanGrow
  simp only [h.next_start, hused, hsize, rtMemheapMinialloc, true_and]
  have hsum : u32 (l - 24 + (len - 24)) = l - 24 + (len - 24) := u32_of_lt (by omega)
  rw [hsum]
  unfold u32
  omega

/-- The call returns, unless the size wraps. -/
theorem Blocks.resize (h : Blocks s (pre ++ ⟨len, true⟩ :: post) xs) (hn : request n = n)
    (hfits : isUsed s.mem (s.startAddr + extent pre + len) = false → n + 12 < 2 ^ 32) : ∃ t ptr,
    MemHeap.resize s (s.startAddr + extent pre + rtMemheapSize) n = some (t, ptr) ∧
      Resizes s (pre ++ ⟨len, true⟩ :: post) (s.startAddr + extent pre) len n t ptr ∧
      (ptr = 0 → len < 24 + n) := by
  have hmem : (s.startAddr + extent pre, len) ∈
      usedSpans s.startAddr (pre ++ ⟨len, true⟩ :: post) := by simp
  obtain ⟨t, ptr, hmove, hmoved⟩ := h.move hmem (len - 24) hn
  have hdvd : 4 ∣ n := hn ▸ dvd_request n
  have hmin : 12 ≤ n := hn ▸ le_request n
  have hlt : n < 2 ^ 32 := hn ▸ request_lt n
  have hend := h.linked.chain.end_le
  have htailer := h.linked.chain.tailer_lt.1
  have hlen : 36 ≤ len := h.room ⟨len, true⟩ (by simp) rfl
  simp only [rtMemheapSize] at htailer
  dsimp only at hend
  unfold MemHeap.resize
  rw [h.linked.chain.header_of]
  dsimp only
  rw [h.linked.chain.size_of, h.linked.chain.next_start]
  dsimp only
  by_cases hmore : n > len - 24
  · rw [if_pos hmore, if_pos (by omega)]
    rcases h.linked.chain.behind with ⟨hused, -⟩ | ⟨hfree, l, post, rfl⟩
    · rw [if_neg fun hgrow => ?_]
      · exact ⟨t, ptr, hmove, hmoved, fun _ => by omega⟩
      · have hnot := hgrow.1
        rw [h.linked.chain.next_start, hused] at hnot
        cases hnot
    · by_cases hgrow : n + 60 < len + l
      · obtain ⟨ys, hblocks, hpool⟩ := h.grow hdvd hmore hgrow
        rw [if_pos ((h.linked.chain.canGrow hlen hlt).mpr (.inl hgrow))]
        refine ⟨_, _, rfl, .inPlace (usedSpans s.startAddr pre)
          (usedSpans (s.startAddr + extent pre + (len + l)) post) hblocks hpool (Nat.le_refl _)
          ?_ ?_, fun hzero => absurd hzero (Nat.succ_ne_zero _)⟩
        · simp [Nat.add_assoc]
        · have hstop : 24 + n + (len + l - (24 + n)) = len + l := by omega
          simp [Nat.add_assoc, hstop]
      · rw [if_neg fun hcan => ?_]
        · exact ⟨t, ptr, hmove, hmoved, fun _ => by omega⟩
        · have := hfits hfree
          rcases (h.linked.chain.canGrow hlen hlt).mp hcan with hcan | hcan <;> omega
  · rw [if_neg hmore]
    have hneed : u32 (n + rtMemheapSize + rtMemheapMinialloc) = n + 36 := u32_of_lt (by
      simp only [rtMemheapSize, rtMemheapMinialloc]
      omega)
    rw [hneed]
    by_cases hkeep : n + 36 ≥ len - 24
    · rw [if_pos hkeep]
      have hspans : usedSpans s.startAddr (pre ++ ⟨len, true⟩ :: post) =
          usedSpans s.startAddr pre ++ (s.startAddr + extent pre, len) ::
            usedSpans (s.startAddr + extent pre + len) post := by simp
      exact ⟨s, _, rfl, .inPlace _ _ h rfl (by omega) hspans hspans,
        fun hzero => absurd hzero (Nat.succ_ne_zero _)⟩
    · rw [if_neg hkeep]
      obtain ⟨len', post', ys, hblocks, hpool, hused⟩ := h.shrink hdvd hmin (by omega)
      refine ⟨_, _, rfl, .inPlace (usedSpans s.startAddr pre)
        (usedSpans (s.startAddr + extent pre + len) post) hblocks hpool (Nat.le_refl _) (by simp)
        ?_, fun hzero => absurd hzero (Nat.succ_ne_zero _)⟩
      simp only [usedSpans_append, usedSpans_mk_true, usedSpans_mk_false, hused]

/-! ## Growing by too much -/

/-- The header that is built in front of the data of its item, as words that are stored. -/
theorem putItem_inside {self f a c new y : Nat} (hc : next m a = c) (hy : nextFree m f = y)
    (hnew : a + 12 ≤ new ∧ new < a + 24) (hf : f + 24 ≤ a ∨ a + 48 ≤ f)
    (hfc : f + 24 ≤ c ∨ c + 24 ≤ f) :
    insertFree (MemHeap.putItem m self a new) new f = (((((((((m.set new rtMemheapMagic).set
      (new + 4) self).set (new + 12) a).set (new + 8) c).set (c + 12) new).set (a + 8) new).set
      (new + 16) y).set (new + 20) f).set (y + 20) new).set (f + 16) new := by
  have hput : MemHeap.putItem m self a new = (((((m.set new rtMemheapMagic).set (new + 4) self).set
      (new + 12) a).set (new + 8) c).set (c + 12) new).set (a + 8) new := by
    have hfirst :
        next (((m.set new rtMemheapMagic).set (new + 4) self).set (new + 12) a) a = c := by
      unfold next at hc ⊢
      simp (disch := omega) only [Mem.set_ne, hc]
    have hlater : next ((((m.set new rtMemheapMagic).set (new + 4) self).set (new + 12) a).set
        (new + 8) c) a = c := by
      unfold next at hc ⊢
      simp (disch := omega) only [Mem.set_ne, hc]
    unfold MemHeap.putItem setMagic setPoolPtr setPrev setNext
    dsimp only
    rw [hfirst, hlater]
  rw [hput, insertFree_eq (by simp only [Apart, rtMemheapSize]; omega) (by omega)]
  have hfree : nextFree ((((((m.set new rtMemheapMagic).set (new + 4) self).set (new + 12) a).set
      (new + 8) c).set (c + 12) new).set (a + 8) new) f = y := by
    unfold nextFree at hy ⊢
    simp (disch := omega) only [Mem.set_ne, hy]
  rw [hfree]

theorem grow_mem (s : Memheap) (ptr headerPtr oldsize newsize : Nat) :
    (MemHeap.grow s ptr headerPtr oldsize newsize).mem =
      insertFree (MemHeap.putItem (unlinkItem (unlinkFree s.mem (next s.mem headerPtr))
        (next s.mem headerPtr)) s.self headerPtr (u32 (ptr + newsize))) (u32 (ptr + newsize))
        s.freeList := by
  unfold MemHeap.grow Memheap.leave
  rfl

theorem grow_toPool (s : Memheap) (ptr headerPtr oldsize newsize : Nat) :
    (MemHeap.grow s ptr headerPtr oldsize newsize).toPool = s.toPool := by
  unfold MemHeap.grow Memheap.leave
  rfl

/-- The item that has grown by too much ends inside of its own header. The headers before it are
those of a heap in which it has only been joined with the free item behind it. -/
theorem Blocks.grow_wraps (h : Blocks s (pre ++ ⟨len, true⟩ :: ⟨l, false⟩ :: post) xs)
    (hlt : n < 2 ^ 32) (hwraps : 2 ^ 32 ≤ n + 12) :
    next (MemHeap.grow s (s.startAddr + extent pre + rtMemheapSize) (s.startAddr + extent pre)
        (len - 24) n).mem (s.startAddr + extent pre) < s.startAddr + extent pre + 24 ∧
      ∃ m, Chain s.toPool m (pre ++ ⟨len + l, true⟩ :: post) ∧
        ∀ x, Bound s.startAddr pre x → x + 24 ≤ s.startAddr + extent pre →
          node s.self (MemHeap.grow s (s.startAddr + extent pre + rtMemheapSize)
            (s.startAddr + extent pre) (len - 24) n).mem x = node s.self m x := by
  have hmem : s.startAddr + extent pre + len ∈ xs := h.perm.mem_iff.mpr (by simp [startsOf_append])
  obtain ⟨ys, -, hjoined⟩ := h.linked.openNext hmem
  have hend := hjoined.chain.end_le
  have htailer := hjoined.chain.tailer_lt
  have houtside := h.linked.chain.outside
  have hlen : 36 ≤ len := h.room ⟨len, true⟩ (by simp) rfl
  have hc := hjoined.chain.next_start
  have hy := hjoined.place _ hjoined.ring.next_mem
  simp only [rtMemheapSize] at htailer houtside
  dsimp only at hend hc
  rw [grow_mem, h.linked.chain.next_start]
  dsimp only
  generalize unlinkItem (unlinkFree s.mem (s.startAddr + extent pre + len))
    (s.startAddr + extent pre + len) = m₂ at hjoined hc hy
  have hnew : s.startAddr + extent pre + 12 ≤
      u32 (s.startAddr + extent pre + rtMemheapSize + n) ∧
      u32 (s.startAddr + extent pre + rtMemheapSize + n) < s.startAddr + extent pre + 24 := by
    unfold u32
    simp only [rtMemheapSize]
    omega
  generalize u32 (s.startAddr + extent pre + rtMemheapSize + n) = new at hnew
  generalize hfirst : nextFree m₂ s.freeList = y at hy
  have hynew := hjoined.chain.place_apart hy (.inl (by simp [bound_append, bound_self]) :
    Place s.toPool _ (s.startAddr + extent pre))
  rw [putItem_inside hc hfirst hnew (by omega) (by omega)]
  simp only [Apart, rtMemheapSize] at hynew
  refine ⟨?_, m₂, hjoined.chain, fun x hx hfar => ?_⟩
  · unfold next
    simp (disch := omega) only [Mem.set_ne, Mem.set_self]
    omega
  · have hxplace : Place s.toPool (pre ++ ⟨len + l, true⟩ :: post) x :=
      .inl (bound_append.mpr (.inl hx))
    have hyx := hjoined.chain.place_apart hy hxplace
    have hfx := hjoined.chain.place_apart (.inr rfl) hxplace
    simp only [Apart, rtMemheapSize] at hyx hfx
    simp (disch := omega) only [node_set_ne]

/-- There is no list of items any more. -/
theorem Blocks.grow_breaks (h : Blocks s (pre ++ ⟨len, true⟩ :: ⟨l, false⟩ :: post) xs)
    (hlt : n < 2 ^ 32) (hwraps : 2 ^ 32 ≤ n + 12) (bs' : List Block) :
    ¬ Chain s.toPool (MemHeap.grow s (s.startAddr + extent pre + rtMemheapSize)
      (s.startAddr + extent pre) (len - 24) n).mem bs' := by
  intro h'
  obtain ⟨hnext, m, hchain, hsame⟩ := h.grow_wraps hlt hwraps
  have hreach := hchain.reaches
  have hreach' := h'.reaches
  have hlen : 36 ≤ len := h.room ⟨len, true⟩ (by simp) rfl
  simp only [extent_append, extent_cons] at hreach
  obtain ⟨zs, rfl⟩ := hchain.tiled.agree h'.tiled (by decide) (by omega) hsame
  cases zs with
  | nil =>
    simp only [List.append_nil] at hreach'
    omega
  | cons b zs =>
    have hb := h'.header_start.2
    rw [h'.next_start] at hnext
    simp only [rtMemheapSize] at hb
    omega

/-- What is asked for is taken for something that fits. -/
theorem Blocks.resize_wraps (h : Blocks s (pre ++ ⟨len, true⟩ :: ⟨l, false⟩ :: post) xs)
    (hlt : n < 2 ^ 32) (hwraps : 2 ^ 32 ≤ n + 12) :
    MemHeap.resize s (s.startAddr + extent pre + rtMemheapSize) n =
      some (MemHeap.grow s (s.startAddr + extent pre + rtMemheapSize) (s.startAddr + extent pre)
        (len - 24) n, s.startAddr + extent pre + rtMemheapSize) := by
  have hend := h.linked.chain.end_le
  have htailer := h.linked.chain.tailer_lt.1
  have hlen : 36 ≤ len := h.room ⟨len, true⟩ (by simp) rfl
  simp only [rtMemheapSize] at htailer
  dsimp only at hend
  unfold MemHeap.resize
  rw [h.linked.chain.header_of]
  dsimp only
  rw [h.linked.chain.size_of, h.linked.chain.next_start]
  dsimp only
  rw [if_pos (by omega), if_pos (by omega),
    if_pos ((h.linked.chain.canGrow hlen hlt).mpr (.inr hwraps))]

end

end ControlRTT.Kernel.MemHeap

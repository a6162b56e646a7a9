import ControlRTT.Kernel.MemHeapRealloc
import ControlRTT.Lib.Extents
import ControlRTT.Lib.Runs

/-! # Runs of a memory heap

The callers allocate, resize and free, and write to the data that they hold. -/
namespace ControlRTT.Kernel.MemHeap
open ControlRTT.Kernel.RtDef ControlRTT.Lib.CInt ControlRTT.Lib.Extents ControlRTT.Lib.Runs
  ControlRTT.Lib.Tiling ControlRTT.Lib.WordMem

/-- The header of a pointer to data. -/
def headerOf (ptr : Nat) : Nat := usub ptr rtMemheapSize

/-- The data behind a pointer: up to the next header. -/
def dataOf (s : Memheap) (ptr : Nat) : Extent := ⟨ptr, next s.mem (headerOf ptr) - ptr⟩

inductive Event where
  | alloc (size : Nat)
  | realloc (ptr newsize : Nat)
  | free (ptr : Nat)
  | store (ptr i v : Nat)

/-- The heap and the pointers that the callers hold. -/
structure HeapRun where
  heap : Memheap
  live : List Nat := []

/-- Sizes have 32 bits. Only pointers that are held are resized, freed and written through. -/
def Allowed (s : HeapRun) : Event → Prop
  | .alloc size => size < 2 ^ 32
  | .realloc ptr newsize => newsize < 2 ^ 32 ∧ (ptr = 0 ∨ ptr ∈ s.live)
  | .free ptr => ptr = 0 ∨ ptr ∈ s.live
  | .store ptr i _ => ptr ∈ s.live ∧ i < (dataOf s.heap ptr).len

instance (s : HeapRun) (e : Event) : Decidable (Allowed s e) :=
  match e with
  | .alloc size => inferInstanceAs (Decidable (size < 2 ^ 32))
  | .realloc ptr newsize =>
    inferInstanceAs (Decidable (newsize < 2 ^ 32 ∧ (ptr = 0 ∨ ptr ∈ s.live)))
  | .free ptr => inferInstanceAs (Decidable (ptr = 0 ∨ ptr ∈ s.live))
  | .store ptr i _ => inferInstanceAs (Decidable (ptr ∈ s.live ∧ i < (dataOf s.heap ptr).len))

/-- A pointer that is not zero is held. -/
def held (live : List Nat) (ptr : Nat) : List Nat := if ptr = 0 then live else ptr :: live

/-- A caller that asks for zero bytes gives its pointer up; one that asks for more and is refused
keeps it. -/
def heldAfter (live : List Nat) (ptr newsize newPtr : Nat) : List Nat :=
  if newPtr = 0 ∧ newsize ≠ 0 then live else held (live.erase ptr) newPtr

/-- The state after a call that returns. -/
def act (s : HeapRun) : Event → Option HeapRun
  | .alloc size => (rtMemheapAlloc s.heap size).map fun (heap, ptr) => ⟨heap, held s.live ptr⟩
  | .realloc ptr newsize => (rtMemheapRealloc s.heap ptr newsize).map fun (heap, newPtr) =>
    ⟨heap, heldAfter s.live ptr newsize newPtr⟩
  | .free ptr => (rtMemheapFree s.heap ptr).map fun heap => ⟨heap, s.live.erase ptr⟩
  | .store ptr i v => some { s with heap := { s.heap with mem := s.heap.mem.set (ptr + i) v } }

def step (s : HeapRun) (e : Event) : Option HeapRun := if Allowed s e then act s e else none

def start (r : Region) : HeapRun := { heap := r.heap }

/-- The items tile the pool, the free list goes over exactly the free ones, no two of these are
neighbours and `available_size` is the sum of their sizes; the used ones are those of the callers,
and what the callers may write is theirs alone. -/
structure Intact (s : HeapRun) (bs : List Block) (xs : List Nat) : Prop where
  blocks : Blocks s.heap bs xs
  live : s.live.Perm ((startsOf true s.heap.startAddr bs).map fun x => x + rtMemheapSize)
  inside : ∀ ptr ∈ s.live, s.heap.startAddr ≤ ptr ∧
    (dataOf s.heap ptr).stop ≤ s.heap.startAddr + s.heap.poolSize
  apart : s.live.Pairwise fun p q => (dataOf s.heap p).Apart (dataOf s.heap q)

def WellFormed (s : HeapRun) : Prop := ∃ bs xs, Intact s bs xs

/-- The size that is asked for leaves no room for `RT_MEMHEAP_MINIALLOC` in 32 bits, and the item
that is to grow has a free one behind it. -/
def Wraps (s : Memheap) (ptr newsize : Nat) : Prop :=
  ptr ≠ 0 ∧ newsize ≠ 0 ∧ 2 ^ 32 ≤ request newsize + rtMemheapMinialloc ∧
    isUsed s.mem (next s.mem (headerOf ptr)) = false

instance (s : Memheap) (ptr newsize : Nat) : Decidable (Wraps s ptr newsize) :=
  inferInstanceAs (Decidable (_ ∧ _ ∧ _ ∧ _))

def Good (s : HeapRun) : Event → Prop
  | .realloc ptr newsize => ¬ Wraps s.heap ptr newsize
  | _ => True

instance (s : HeapRun) : DecidablePred (Good s)
  | .realloc ptr newsize => inferInstanceAs (Decidable (¬ Wraps s.heap ptr newsize))
  | .alloc _ | .free _ | .store _ _ _ => .isTrue trivial

/-! ## The items and their owners -/

/-- The pointers to the data of the used items. -/
def ptrs (s : Memheap) (bs : List Block) : List Nat :=
  (startsOf true s.startAddr bs).map fun x => x + rtMemheapSize

/-- The callers hold exactly the used items. -/
structure Owned (s : HeapRun) (bs : List Block) (xs : List Nat) : Prop where
  blocks : Blocks s.heap bs xs
  live : s.live.Perm (ptrs s.heap bs)

theorem ptrs_eq (s : Memheap) (bs : List Block) :
    ptrs s bs = (usedSpans s.startAddr bs).map fun x : Nat × Nat => x.1 + rtMemheapSize := by
  rw [ptrs, ← map_fst_usedSpans, List.map_map]
  rfl

theorem ptr_ne_zero (x : Nat) : x + rtMemheapSize ≠ 0 := Nat.succ_ne_zero _

section
variable {s s' : HeapRun} {t t' : Memheap} {pre post bs bs' : List Block} {b : Block}
  {xs ys : List Nat} {live : List Nat} {len n ptr newPtr x : Nat}

theorem Chain.headerOf {p : Pool} {m : Mem} (h : Chain p m (pre ++ b :: post)) :
    MemHeap.headerOf (p.startAddr + extent pre + rtMemheapSize) = p.startAddr + extent pre :=
  h.header_of

theorem Chain.dataOf (h : Chain t.toPool t.mem (pre ++ b :: post)) :
    dataOf t (t.startAddr + extent pre + rtMemheapSize) =
      ⟨t.startAddr + extent pre + rtMemheapSize, b.len - rtMemheapSize⟩ := by
  unfold MemHeap.dataOf
  rw [h.headerOf, h.next_start, Nat.add_sub_add_left]

theorem Owned.mem_live (h : Owned s bs xs) (hp : ptr ∈ s.live) :
    ∃ x len, (x, len) ∈ usedSpans s.heap.startAddr bs ∧ ptr = x + rtMemheapSize := by
  have hmem := h.live.mem_iff.mp hp
  rw [ptrs_eq] at hmem
  obtain ⟨⟨x, len⟩, hx, rfl⟩ := List.mem_map.mp hmem
  exact ⟨x, len, hx, rfl⟩

/-- A live pointer is that of a used item. -/
theorem Owned.block (h : Owned s bs xs) (hp : ptr ∈ s.live) : ∃ pre len post,
    bs = pre ++ ⟨len, true⟩ :: post ∧ ptr = s.heap.startAddr + extent pre + rtMemheapSize := by
  obtain ⟨x, len, hx, rfl⟩ := h.mem_live hp
  obtain ⟨pre, post, rfl, rfl⟩ := mem_usedSpans hx
  exact ⟨pre, len, post, rfl, rfl⟩

theorem Owned.zero_notMem (h : Owned s bs xs) : 0 ∉ s.live := fun h0 => by
  obtain ⟨x, len, -, hx⟩ := h.mem_live h0
  exact ptr_ne_zero x hx.symm

theorem Owned.intact (h : Owned s bs xs) : Intact s bs xs := by
  have hc := h.blocks.linked.chain
  refine ⟨h.blocks, h.live, fun p hp => ?_, ?_⟩
  · obtain ⟨pre, len, post, rfl, rfl⟩ := h.block hp
    have hend := hc.end_le
    have htailer := hc.tailer_lt.2
    have hlen := hc.header_start.2
    rw [hc.dataOf]
    simp only [Extent.stop, rtMemheapSize] at hend htailer hlen ⊢
    omega
  · rw [h.live.pairwise_iff fun hxy => hxy.symm, ptrs, List.pairwise_map]
    refine (hc.tiled.pairwise_starts true).imp_of_mem fun {x y} hx _ hxy => ?_
    obtain ⟨n, hn, -, hle⟩ := hxy
    obtain ⟨pre, b, post, rfl, -, rfl⟩ := mem_startsOf hx
    have hheader := hc.header_start
    obtain rfl := Option.some.inj (hn.symm.trans hheader.1)
    left
    rw [hc.dataOf]
    simp only [Extent.stop, rtMemheapSize, MemHeap.dataOf] at hle hheader ⊢
    omega

/-- One more item is held. -/
theorem Owned.gives (h : Owned ⟨t, live⟩ bs xs) (hg : Gives t bs n t' ptr) :
    ∃ bs' ys, Owned ⟨t', held live ptr⟩ bs' ys := by
  rcases hg with ⟨rfl, rfl⟩ | ⟨pre, len, post, ys, hblocks, hpool, rfl, -, hperm⟩
  · exact ⟨bs, xs, h⟩
  · refine ⟨_, ys, hblocks, ?_⟩
    have hstart : t'.startAddr = t.startAddr := congrArg Pool.startAddr hpool
    have hlive := h.live
    rw [held, if_neg (ptr_ne_zero _), ptrs_eq, hstart]
    rw [ptrs_eq] at hlive
    exact (hlive.cons _).trans (hperm.symm.map fun x : Nat × Nat => x.1 + rtMemheapSize)

theorem Owned.free (h : Owned ⟨t, live⟩ bs xs) (hmem : ptr = 0 ∨ ptr ∈ live) :
    ∃ t' bs' ys, rtMemheapFree t ptr = some t' ∧ Owned ⟨t', live.erase ptr⟩ bs' ys := by
  rcases hmem with rfl | hmem
  · refine ⟨t, bs, xs, if_pos rfl, ?_⟩
    rw [List.erase_of_not_mem h.zero_notMem]
    exact h
  · obtain ⟨x, len, hx, rfl⟩ := h.mem_live hmem
    obtain ⟨t', bs', ys, hfree, hblocks, hpool, hperm⟩ := h.blocks.free hx
    have hstart : t'.startAddr = t.startAddr := congrArg Pool.startAddr hpool
    have hlive := h.live
    refine ⟨t', bs', ys, hfree, hblocks, ?_⟩
    rw [ptrs_eq] at hlive
    have herased :=
      (hlive.trans (hperm.map fun x : Nat × Nat => x.1 + rtMemheapSize)).erase (x + rtMemheapSize)
    rw [List.map_cons, List.erase_cons_head] at herased
    rw [ptrs_eq, hstart]
    exact herased

/-- An item is resized in place, or given up for another one. -/
theorem Owned.resizes (h : Owned ⟨t, live⟩ bs xs) (hmem : x + rtMemheapSize ∈ live)
    (hr : Resizes t bs x len n t' newPtr) : ∃ bs' ys,
      Owned ⟨t', if newPtr = 0 then live else newPtr :: live.erase (x + rtMemheapSize)⟩ bs' ys := by
  rcases hr with ⟨rfl, rfl⟩ | ⟨y, l, bs', ys, hblocks, hpool, rfl, -, -, hperm⟩
  · exact ⟨bs, xs, h⟩
  · have hstart : t'.startAddr = t.startAddr := congrArg Pool.startAddr hpool
    have hlive := h.live
    rw [ptrs_eq] at hlive
    refine ⟨bs', ys, hblocks, ?_⟩
    rw [if_neg (ptr_ne_zero _), ptrs_eq, hstart]
    have hmoved := hperm.map fun x : Nat × Nat => x.1 + rtMemheapSize
    rw [List.map_cons, List.map_cons] at hmoved
    have hswap := ((List.perm_cons_erase hmem).symm.trans hlive).cons (y + rtMemheapSize)
    exact ((List.Perm.swap _ _ _).trans (hswap.trans hmoved.symm)).cons_inv

theorem heldAfter_of_ne (hn : n ≠ 0) : heldAfter live ptr n newPtr =
    if newPtr = 0 then live else newPtr :: live.erase ptr := by
  by_cases hp : newPtr = 0
  · rw [heldAfter, if_pos ⟨hp, hn⟩, if_pos hp]
  · rw [heldAfter, if_neg fun hand => hp hand.1, held, if_neg hp, if_neg hp]

/-- What resizing comes to: the item is given up, or there was none, or it is resized, or it is
taken to have grown and there is no list of items any more. -/
theorem Owned.realloc_cases (h : Owned ⟨t, live⟩ bs xs) (hmem : ptr = 0 ∨ ptr ∈ live) (n : Nat) :
    ∃ t' newPtr, rtMemheapRealloc t ptr n = some (t', newPtr) ∧
      (n = 0 ∧ newPtr = 0 ∧ (∃ bs' ys, Owned ⟨t', live.erase ptr⟩ bs' ys) ∨
        n ≠ 0 ∧ ptr = 0 ∧ Gives t bs (request n) t' newPtr ∧
          (newPtr ≠ 0 ↔ request n < t.availableSize ∧
            ∃ x ∈ startsOf false t.startAddr bs, request n ≤ memitemSize t.mem x) ∨
        n ≠ 0 ∧ ¬ Wraps t ptr n ∧ ptr ∈ live ∧ (∃ x len, ptr = x + rtMemheapSize ∧
          Resizes t bs x len (request n) t' newPtr ∧ 36 ≤ len ∧
          (newPtr = 0 → len < 24 + request n)) ∨
        Wraps t ptr n ∧ newPtr = ptr ∧ (dataOf t' ptr).len = 0 ∧
          ∀ bs', ¬ Chain t'.toPool t'.mem bs') := by
  unfold rtMemheapRealloc
  by_cases hzero : n = 0
  · obtain ⟨t', bs', ys, hfree, howned⟩ := h.free hmem
    rw [if_pos hzero, hfree]
    exact ⟨t', 0, rfl, .inl ⟨hzero, rfl, bs', ys, howned⟩⟩
  rw [if_neg hzero]
  by_cases hnull : ptr = 0
  · obtain ⟨t', p, halloc, hgives, hiff⟩ := h.blocks.alloc (request n)
    rw [request_request] at hgives hiff
    rw [if_pos hnull, halloc]
    exact ⟨t', p, rfl, .inr (.inl ⟨hzero, hnull, hgives, hiff⟩)⟩
  rw [if_neg hnull]
  have hlive := hmem.resolve_left hnull
  obtain ⟨pre, len, post, rfl, rfl⟩ := h.block hlive
  have hc := h.blocks.linked.chain
  have hnext := hc.next_start
  dsimp only at hlive hnext ⊢
  by_cases hwraps : Wraps t (t.startAddr + extent pre + rtMemheapSize) n
  · obtain ⟨-, -, hbig, hfree⟩ := id hwraps
    rw [hc.headerOf, hnext] at hfree
    rcases hc.behind with ⟨hused, -⟩ | ⟨-, l, post', rfl⟩
    · rw [hused] at hfree
      cases hfree
    · have hbreaks := h.blocks.grow_breaks (request_lt n) hbig
      have hshort := (h.blocks.grow_wraps (request_lt n) hbig).1
      refine ⟨_, _, h.blocks.resize_wraps (request_lt n) hbig,
        .inr (.inr (.inr ⟨hwraps, rfl, ?_, fun bs' => ?_⟩))⟩
      · unfold MemHeap.dataOf
        rw [hc.headerOf]
        exact Nat.sub_eq_zero_of_le (Nat.le_of_lt hshort)
      · rw [grow_toPool]
        exact hbreaks bs'
  · obtain ⟨t', p, hresize, hres, hrefused⟩ := h.blocks.resize (request_request n) fun hfree => by
      by_contra hbig
      refine hwraps ⟨hnull, hzero, Nat.le_of_not_lt hbig, ?_⟩
      rw [hc.headerOf, hnext]
      exact hfree
    exact ⟨t', p, hresize, .inr (.inr (.inl ⟨hzero, hwraps, hlive, _, len, rfl, hres,
      h.blocks.room ⟨len, true⟩ (by simp) rfl, hrefused⟩))⟩

/-- The call returns. If it wraps there is no list of items afterwards. -/
theorem Owned.realloc (h : Owned ⟨t, live⟩ bs xs) (hmem : ptr = 0 ∨ ptr ∈ live) (n : Nat) :
    ∃ t' newPtr, rtMemheapRealloc t ptr n = some (t', newPtr) ∧
      (¬ Wraps t ptr n → ∃ bs' ys, Owned ⟨t', heldAfter live ptr n newPtr⟩ bs' ys) ∧
      (Wraps t ptr n → ∀ bs', ¬ Chain t'.toPool t'.mem bs') := by
  obtain ⟨t', p, hcall, ⟨hzero, rfl, howned⟩ | ⟨hn, rfl, hgives, -⟩ |
    ⟨hn, hwraps, hlive, x, len, rfl, hres, -, -⟩ | ⟨hwraps, -, -, hbreaks⟩⟩ :=
    h.realloc_cases hmem n
  · refine ⟨t', 0, hcall, fun _ => ?_, fun hwraps => absurd hzero hwraps.2.1⟩
    rw [heldAfter, if_neg fun hand => hand.2 hzero]
    exact howned
  · refine ⟨t', p, hcall, fun _ => ?_, fun hwraps => absurd rfl hwraps.1⟩
    rw [heldAfter_of_ne hn, List.erase_of_not_mem h.zero_notMem]
    exact h.gives hgives
  · refine ⟨t', p, hcall, fun _ => ?_, fun hwraps' => absurd hwraps' hwraps⟩
    rw [heldAfter_of_ne hn]
    exact h.resizes hlive hres
  · exact ⟨t', p, hcall, fun hnot => absurd hwraps hnot, fun _ => hbreaks⟩

theorem Owned.store (h : Owned s bs xs) (hmem : ptr ∈ s.live) {i : Nat}
    (hi : i < (dataOf s.heap ptr).len) (v : Nat) :
    Owned { s with heap := { s.heap with mem := s.heap.mem.set (ptr + i) v } } bs xs := by
  obtain ⟨pre, len, post, rfl, rfl⟩ := h.block hmem
  rw [h.blocks.linked.chain.dataOf] at hi
  refine ⟨h.blocks.data fun x hx => ?_, h.live⟩
  simp only [rtMemheapSize] at hi ⊢
  exact Mem.set_ne _ _ (by omega)

/-- An event that is allowed comes about, and keeps the items with their owners exactly if it is
good. -/
theorem Owned.step (h : Owned s bs xs) {e : Event} (hallowed : Allowed s e) :
    ∃ s', MemHeap.step s e = some s' ∧ (Good s e → ∃ bs' ys, Owned s' bs' ys) ∧
      (¬ Good s e → ¬ WellFormed s') := by
  unfold MemHeap.step
  rw [if_pos hallowed]
  cases e with
  | alloc size =>
    obtain ⟨t, p, halloc, hgives, -⟩ := h.blocks.alloc size
    refine ⟨_, by rw [act, halloc]; rfl, fun _ => h.gives hgives, fun hbad => absurd trivial hbad⟩
  | realloc ptr newsize =>
    obtain ⟨t, p, hcall, hgood, hbad⟩ := h.realloc hallowed.2 newsize
    refine ⟨_, by rw [act, hcall]; rfl, hgood, fun hnot hwell => ?_⟩
    obtain ⟨bs', ys, hintact⟩ := hwell
    exact hbad (not_not.mp hnot) bs' hintact.blocks.linked.chain
  | free ptr =>
    obtain ⟨t, bs', ys, hfree, howned⟩ := h.free hallowed
    exact ⟨_, by rw [act, hfree]; rfl, fun _ => ⟨bs', ys, howned⟩, fun hbad => absurd trivial hbad⟩
  | store ptr i v =>
    exact ⟨_, rfl, fun _ => ⟨bs, xs, h.store hallowed.1 hallowed.2 v⟩,
      fun hbad => absurd trivial hbad⟩

end

theorem start_owned (r : Region) :
    Owned (start r) [⟨r.heap.poolSize - rtMemheapSize, false⟩] [r.startAddr] :=
  ⟨r.blocks, .refl _⟩

/-- A good event keeps the items with their owners, and any other one breaks the heap. -/
theorem owned_step {s s' : HeapRun} {e : Event} (h : ∃ bs xs, Owned s bs xs)
    (hstep : step s e = some s') :
    (Good s e → ∃ bs xs, Owned s' bs xs) ∧ (¬ Good s e → ¬ WellFormed s') := by
  obtain ⟨bs, xs, howned⟩ := h
  obtain ⟨s₁, hs₁, hgood, hbad⟩ := howned.step (Option.ite_none_right_eq_some.mp hstep).1
  obtain rfl := Option.some.inj (hs₁.symm.trans hstep)
  exact ⟨hgood, hbad⟩

/-- The items are well formed throughout exactly the runs in which no item is to grow by a size
that wraps. -/
theorem items_throughout_iff (r : Region) (es : List Event) :
    Throughout step WellFormed (start r) es ↔ Along step Good (start r) es := by
  refine throughout_iff_along (J := fun s => ∃ bs xs, Owned s bs xs) ?_
    (fun s e s' h hgood hstep => (owned_step h hstep).1 hgood)
    (fun s e s' h hstep hwell => ?_) ⟨_, _, start_owned r⟩ es
  · rintro s ⟨bs, xs, h⟩
    exact ⟨bs, xs, h.intact⟩
  · by_contra hbad
    exact (owned_step h hstep).2 hbad hwell

/-- An item is to grow to nearly `2 ^ 32` bytes, and the header of what is left is built before the
item's own data. -/
theorem grown_item_breaks_list :
    ¬ ∀ (r : Region) (es : List Event), Throughout step WellFormed (start r) es := by
  intro h
  have hall := h smallRegion [.alloc 16, .realloc 0x2018 0xfffffff4]
  have hfirst : (step (start smallRegion) (.alloc 16)).any (fun s =>
      decide (Allowed s (.realloc 0x2018 0xfffffff4) ∧ ¬ Good s (.realloc 0x2018 0xfffffff4))) =
        true := by
    decide +kernel
  obtain ⟨s, hs, hbad⟩ := (Option.any_eq_true _ _).mp hfirst
  obtain ⟨hallowed, hbad⟩ := of_decide_eq_true hbad
  have howned := (owned_step ⟨_, _, start_owned smallRegion⟩ hs).1 trivial
  obtain ⟨bs, xs, hitems⟩ := howned
  obtain ⟨s', hs', -, hbreaks⟩ := hitems.step hallowed
  exact hbreaks hbad ((hall.2 s hs).2 s' hs')

/-- The heap is well formed, and every call that is allowed returns. -/
def Sound (s : HeapRun) : Prop :=
  WellFormed s ∧ ∀ e, Allowed s e → (step s e).isSome

/-- The heap stays sound exactly in the runs in which no item is to grow by a size that wraps. -/
theorem sound_throughout_iff (r : Region) (es : List Event) :
    Throughout step Sound (start r) es ↔ Along step Good (start r) es := by
  refine throughout_iff_along (J := fun s => ∃ bs xs, Owned s bs xs) ?_
    (fun s e s' h hgood hstep => (owned_step h hstep).1 hgood)
    (fun s e s' h hstep hsound => ?_) ⟨_, _, start_owned r⟩ es
  · rintro s ⟨bs, xs, h⟩
    refine ⟨⟨bs, xs, h.intact⟩, fun e hallowed => ?_⟩
    obtain ⟨s', hs, -⟩ := h.step hallowed
    rw [hs]
    rfl
  · by_contra hbad
    exact (owned_step h hstep).2 hbad hsound.1

/-- Items are cut off, written to, given back and resized. An item with a free one behind it is to
grow to nearly `2 ^ 32` bytes. -/
theorem sound_throughout_iff_small :
    Throughout step Sound (start smallRegion) [.alloc 16, .alloc 20, .store 0x2018 4 7,
      .free 0x2018, .realloc 0x2040 60, .alloc 10, .realloc 0x2040 8] ∧
    ¬ Throughout step Sound (start smallRegion) [.alloc 16, .realloc 0x2018 0xfffffff4] :=
  ⟨(sound_throughout_iff _ _).mpr (by decide +kernel),
    fun h => absurd ((sound_throughout_iff _ _).mp h) (by decide +kernel)⟩

end ControlRTT.Kernel.MemHeap

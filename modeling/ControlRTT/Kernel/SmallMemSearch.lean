import ControlRTT.Kernel.SmallMemRuns

/-! # The search for a free block (mem.c)

`rt_malloc` walks along the headers from `lfree` on, up to the last offset at which the request
could fit. The request is made larger than the heap if the heap is smaller than the smallest block,
and then the walk stays at `heap_end` for ever (`search_throughout`). -/
namespace ControlRTT.Kernel.SmallMem
open ControlRTT.Kernel.RtDef ControlRTT.Lib.CInt ControlRTT.Lib.Runs ControlRTT.Lib.Tiling
  ControlRTT.Lib.WordMem

/-! ## The end of the search -/

/-- What `rt_malloc` makes of a request. -/
def searched (size : Nat) : Nat :=
  if rtAlign size rtAlignSize < minSize then minSize else rtAlign size rtAlignSize

/-- A request is refused without a search. -/
def Refused (s : Heap) (size : Nat) : Prop := size = 0 ∨ s.memSizeAligned < rtAlign size rtAlignSize

/-- The search ends, if there is one. -/
def SearchEnds (s : Heap) (size : Nat) : Prop :=
  Refused s size ∨ ∃ fuel result, findFit s (searched size) fuel s.lfree = some result

section
variable {s : Heap} {bs : List Block} {size fuel ptr : Nat}

theorem Chain.heapEnd_lt (h : Chain s bs) : s.memSizeAligned + 12 < 2 ^ 32 := by
  have hfits := h.fits
  simp only [Heap.heapEnd, sizeofStructMem] at hfits
  omega

/-- Every step of the search goes on to a higher header. -/
theorem Chain.search (h : Chain s bs) (hb : Bound 0 bs ptr) (hsize : size ≤ s.memSizeAligned)
    (hfuel : s.heapEnd < ptr + fuel) :
    ∃ result, SmallMem.findFit s size fuel ptr = some result := by
  have hlt := h.heapEnd_lt
  induction fuel generalizing ptr with
  | zero =>
    have hend : ptr ≤ s.heapEnd := by
      rcases hb.cases with hptr | ⟨pre, b, post, rfl, hptr⟩
      · rw [hptr, h.reaches, Nat.zero_add]
      · rw [hptr, Nat.zero_add]
        exact Nat.le_of_lt h.start_lt
    omega
  | succ fuel ih =>
    unfold SmallMem.findFit
    split
    · rename_i hbound
      rw [usub_of_le hsize (by omega)] at hbound
      split
      · exact ⟨_, rfl⟩
      · rcases hb.cases with hptr | ⟨pre, b, post, rfl, hptr⟩
        · rw [h.reaches, Nat.zero_add] at hptr
          simp only [Heap.heapEnd, sizeofStructMem] at hptr
          omega
        · refine ih (h.bound_next hb) ?_
          have hlen := h.tiled.header.2
          rw [Nat.zero_add] at hptr
          rw [hptr, h.hdr_start]
          simp only [header, sizeofStructMem] at hlen ⊢
          omega
    · exact ⟨_, rfl⟩

/-- A heap that is smaller than the smallest block is one block. -/
theorem Chain.single (h : Chain s bs) (hsmall : s.memSizeAligned < minSize) :
    ∃ b, bs = [b] ∧ b.len = s.heapEnd := by
  have hend := h.reaches
  simp only [Heap.heapEnd, sizeofStructMem, minSize] at hend hsmall
  rcases bs with _ | ⟨b, _ | ⟨c, bs⟩⟩
  · simp at hend
  · exact ⟨b, rfl, by simpa [Heap.heapEnd, sizeofStructMem] using hend⟩
  · have hb := h.tiled.2.1
    have hc := h.tiled.2.2.2.1
    simp only [extent_cons, sizeofStructMem] at hend hb hc
    omega

/-- Nothing ends the search at `heap_end` then. -/
theorem Chain.search_forever (h : Chain s bs) (hsmall : s.memSizeAligned < minSize)
    (hb : Bound 0 bs ptr) (fuel : Nat) : SmallMem.findFit s minSize fuel ptr = none := by
  obtain ⟨b, rfl, hlen⟩ := h.single hsmall
  have hlt := h.heapEnd_lt
  have hbound : usub s.memSizeAligned minSize = 2 ^ 32 + s.memSizeAligned - minSize := by
    unfold usub u32
    simp only [minSize] at hsmall ⊢
    omega
  induction fuel generalizing ptr with
  | zero => rfl
  | succ fuel ih =>
    have hnext := ih (h.bound_next hb)
    unfold SmallMem.findFit
    rw [hbound]
    rcases hb with rfl | hptr
    · have hdr : (s.hdr 0).next = s.memSizeAligned + 12 := by
        have hfirst : Chain s ([] ++ [b]) := h
        have hstart := hfirst.hdr_start
        rw [extent_nil] at hstart
        rw [hstart]
        simp only [header, Nat.zero_add, hlen, Heap.heapEnd, sizeofStructMem]
      have hunfit : ¬ ((s.hdr 0).used = 0 ∧
          minSize ≤ usub (s.hdr 0).next (u32 (0 + sizeofStructMem))) := by
        rintro ⟨-, hfit⟩
        rw [hdr] at hfit
        simp only [sizeofStructMem, minSize] at hfit hsmall
        rw [u32_of_lt (by omega), usub_of_le (by omega) (by omega)] at hfit
        omega
      rw [if_pos (by simp only [minSize]; omega), if_neg hunfit]
      exact hnext
    · have hend : ptr = s.heapEnd := by
        rw [bound_nil.mp hptr, hlen, Nat.zero_add]
      have hused : ¬ ((s.hdr ptr).used = 0 ∧
          minSize ≤ usub (s.hdr ptr).next (u32 (ptr + sizeofStructMem))) := by
        rintro ⟨hfree, -⟩
        rw [hend, h.hdr_end.1] at hfree
        cases hfree
      have hlow : ptr < 2 ^ 32 + s.memSizeAligned - minSize := by
        rw [hend]
        simp only [Heap.heapEnd, sizeofStructMem, minSize]
        omega
      rw [if_pos hlow, if_neg hused]
      exact hnext

/-- The search ends exactly if the heap has room for the smallest block. -/
theorem Blocks.searchEnds_iff (h : Blocks s bs) (size : Nat) :
    SearchEnds s size ↔ minSize ≤ s.memSizeAligned ∨ Refused s size := by
  constructor
  · rintro (hrefused | ⟨fuel, result, hfind⟩)
    · exact .inr hrefused
    · by_contra hnot
      rw [not_or, Nat.not_le] at hnot
      obtain ⟨hsmall, hsearched⟩ := hnot
      have hmin : searched size = minSize := by
        unfold Refused at hsearched
        unfold searched
        exact if_pos (by omega)
      rw [hmin, h.chain.search_forever hsmall h.lfree] at hfind
      cases hfind
  · rintro (hroom | hrefused)
    · by_cases hrefused : Refused s size
      · exact .inl hrefused
      · have hle : searched size ≤ s.memSizeAligned := by
          unfold Refused at hrefused
          unfold searched
          split <;> omega
        have hfuel : s.heapEnd < s.lfree + s.fuel := by
          unfold Heap.fuel
          omega
        obtain ⟨result, hfind⟩ := h.chain.search h.lfree hle hfuel
        exact .inr ⟨s.fuel, result, hfind⟩
    · exact .inl hrefused

end

/-- In a run of good steps the search for a request ends exactly if the heap has room for the
smallest block, or the request is refused without one. -/
theorem search_throughout (mem : Mem) (beginAddr endAddr : Nat) (hend : endAddr < 2 ^ 32)
    (s : HeapRun) (hstart : start mem beginAddr endAddr = some s) (es : List Event)
    (hgood : Along step Good s es) : Throughout step (fun s => ∀ size, SearchEnds s.heap size ↔
      minSize ≤ s.heap.memSizeAligned ∨ Refused s.heap size) s es :=
  throughout_of_along (fun _ ⟨_, h⟩ size => h.blocks.searchEnds_iff size)
    (fun _ _ _ h hgood hstep => Owned.step h hgood hstep) (start_owned hend hstart) hgood

theorem search_after_malloc : ∃ s, start (fun _ => 0) 0 200 = some s ∧
    Throughout step (fun s => ∀ size, SearchEnds s.heap size ↔
      minSize ≤ s.heap.memSizeAligned ∨ Refused s.heap size) s [.malloc 10, .free 12] := by
  obtain ⟨s, hs⟩ : ∃ s, start (fun _ => 0) 0 200 = some s := ⟨_, rfl⟩
  exact ⟨s, hs, search_throughout _ 0 200 (by decide) s hs _
    fun _ _ => ⟨trivial, fun _ _ => ⟨trivial, trivial⟩⟩⟩

/-- One byte from a heap of eight: the request becomes twelve, and the bound wraps. -/
theorem search_for_ever : ∃ s, start (fun _ => 0) 0 32 = some s ∧ ¬ SearchEnds s.heap 1 := by
  obtain ⟨s, hs⟩ : ∃ s, start (fun _ => 0) 0 32 = some s := ⟨_, rfl⟩
  obtain ⟨bs, howned⟩ := start_owned (by decide) hs
  obtain rfl := Option.some.inj hs
  refine ⟨_, rfl, fun hends => ?_⟩
  rcases (howned.blocks.searchEnds_iff 1).mp hends with hroom | hrefused
  · exact absurd hroom (by decide)
  · unfold Refused at hrefused
    exact absurd hrefused (by decide)

end ControlRTT.Kernel.SmallMem

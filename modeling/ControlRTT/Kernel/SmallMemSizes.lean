import ControlRTT.Kernel.SmallMemContents
import ControlRTT.Kernel.SmallMemFit

/-! # The sizes of the blocks (mem.c)

A pointer that a call returns has room for what was asked for, unless `RT_ALIGN` or the product in
`rt_calloc` wraps: then the smallest block is enough for `rt_malloc` (`serves_throughout_iff`). -/
namespace ControlRTT.Kernel.SmallMem
open ControlRTT.Kernel.RtDef ControlRTT.Lib.CInt ControlRTT.Lib.Runs ControlRTT.Lib.Tiling
  ControlRTT.Lib.WordMem

/-- The pointer is that of a used block with room for `n` bytes. -/
def BlockOf (t : Heap) (p n : Nat) : Prop := ∃ bs, Chain t bs ∧
  ∃ x ∈ startsOf true 0 bs, p = t.heapPtr + x + sizeofStructMem ∧ n ≤ t.dataSize x

/-- What an allocating call returns. -/
def call (s : Heap) : Event → Option (Heap × Nat)
  | .malloc size => rtMalloc s size
  | .calloc count size => rtCalloc s count size
  | .realloc rmem newsize => rtRealloc s rmem newsize
  | .free _ => none
  | .store _ _ _ => none

/-- The bytes that a call asks for. -/
def asked : Event → Nat
  | .malloc size => size
  | .calloc count size => count * size
  | .realloc _ newsize => newsize
  | .free _ => 0
  | .store _ _ _ => 0

/-- The sizes and counts are 32-bit words. -/
def WordSized : Event → Prop
  | .malloc size => size < 2 ^ 32
  | .calloc count size => count < 2 ^ 32 ∧ size < 2 ^ 32
  | .realloc _ newsize => newsize < 2 ^ 32
  | .free _ => True
  | .store _ _ _ => True

def Serves (s : HeapRun) (e : Event) : Prop :=
  ∀ t p, call s.heap e = some (t, p) → p ≠ 0 → BlockOf t p (asked e)

/-- A free block that the search for a request comes to and takes. -/
def Found (s : HeapRun) (size : Nat) : Prop :=
  ∃ bs, Intact s bs ∧ Available s.heap bs (searched size)

/-- Neither the sum in `RT_ALIGN` nor a product wraps, or the request that it leaves is refused. -/
def Unwrapped (s : HeapRun) : Event → Prop
  | .malloc size => size + (rtAlignSize - 1) < 2 ^ 32 ∨ ¬ Found s size
  | .calloc count size => count * size + (rtAlignSize - 1) < 2 ^ 32 ∨
    u32 (count * size) = 0 ∨ ¬ Found s (u32 (count * size))
  | _ => True

section
variable {s : HeapRun} {t t' : Heap} {live : List Nat} {bs : List Block}
  {rmem size newsize count n p : Nat}

/-- No block has room for a number of bytes that wraps. -/
theorem BlockOf.lt (h : BlockOf t p n) : n + 3 < 2 ^ 32 := by
  obtain ⟨bs, hchain, x, hx, -, hn⟩ := h
  obtain ⟨pre, b, post, rfl, -, rfl⟩ := mem_startsOf hx
  have hlt := hchain.heapEnd_lt
  have hend := hchain.end_le
  rw [Nat.zero_add, hchain.dataSize] at hn
  simp only [Heap.heapEnd, sizeofStructMem] at hend
  omega

theorem Owned.found_iff (h : Owned s bs) (hsize : size ≠ 0) :
    Found s size ↔ Grants s.heap size := by
  rw [h.blocks.grants_iff, and_iff_right hsize]
  refine ⟨?_, fun havailable => ⟨bs, h.intact, havailable⟩⟩
  rintro ⟨bs', hintact, havailable⟩
  exact h.unique hintact ▸ havailable

theorem Gives.blockOf (h : Gives t bs n t' p) (hp : p ≠ 0) : BlockOf t' p n := by
  obtain ⟨hnone, -⟩ | ⟨pre, len, post, hblocks, hplace, rfl, hlen, -⟩ := h
  · exact absurd hnone hp
  · refine ⟨_, hblocks.chain, extent pre, by simp, by rw [hplace.1], ?_⟩
    rw [hblocks.chain.dataSize]
    exact Nat.le_sub_of_add_le' hlen

theorem BlockOf.mono {m : Nat} (h : BlockOf t p n) (hle : m ≤ n) : BlockOf t p m := by
  obtain ⟨bs, hchain, x, hx, hp, hn⟩ := h
  exact ⟨bs, hchain, x, hx, hp, Nat.le_trans hle hn⟩

theorem malloc_zero (s : Heap) : rtMalloc s 0 = some (s, 0) := if_pos rfl

/-- What is not found is refused. -/
theorem Owned.found (h : Owned s bs) (hcall : rtMalloc s.heap size = some (t, p)) (hp : p ≠ 0) :
    Found s size := by
  refine (h.found_iff ?_).mpr ⟨t, p, hcall, hp⟩
  rintro rfl
  rw [malloc_zero] at hcall
  exact hp (Prod.mk.inj (Option.some.inj hcall)).2.symm

theorem Owned.serves_malloc_iff (h : Owned s bs) :
    Serves s (.malloc size) ↔ Unwrapped s (.malloc size) := by
  constructor
  · intro hserves
    by_contra hwraps
    obtain ⟨hbig, hfound⟩ := not_or.mp hwraps
    simp only [rtAlignSize] at hbig
    obtain ⟨t, p, hcall, hp⟩ := (h.found_iff (by omega)).mp (not_not.mp hfound)
    exact hbig (hserves t p hcall hp).lt
  · intro hunwrapped t p hcall hp
    rcases hunwrapped with hfits | hrefused
    · exact ((h.blocks.malloc hcall).blockOf hp).mono (rtAlign_four hfits).1
    · exact absurd (h.found hcall hp) hrefused

theorem Owned.serves_calloc_iff (h : Owned s bs) :
    Serves s (.calloc count size) ↔ Unwrapped s (.calloc count size) := by
  constructor
  · intro hserves
    by_contra hwraps
    obtain ⟨hbig, hwraps⟩ := not_or.mp hwraps
    obtain ⟨hzero, hfound⟩ := not_or.mp hwraps
    obtain ⟨t, p, hcall, hp⟩ := (h.found_iff hzero).mp (not_not.mp hfound)
    have hcalloc : rtCalloc s.heap count size = some ({ t with
        mem := clear t.mem (t.memOf p + sizeofStructMem) (u32 (count * size)) }, p) := by
      unfold rtCalloc
      rw [hcall]
      exact congrArg some (if_pos hp)
    exact hbig (hserves _ p hcalloc hp).lt
  · intro hunwrapped t p hcall hp
    rcases h.blocks.calloc_parts hcall with ⟨hnone, -⟩ | ⟨u, pre, len, post, hmalloc, hu, hplace,
      rfl, hlen, -, rfl⟩
    · exact absurd hnone hp
    rcases hunwrapped with hfits | hzero | hrefused
    · have hword : u32 (count * size) = count * size :=
        u32_of_lt (Nat.lt_of_le_of_lt (Nat.le_add_right _ _) hfits)
      rw [hword] at hlen ⊢
      have halign := (rtAlign_four hfits).1
      have hcleared : Blocks { u with
          mem := clear u.mem (extent pre + sizeofStructMem) (count * size) }
          (pre ++ ⟨len, true⟩ :: post) := by
        refine hu.data fun x hx => clear_outside ?_
        simp only [sizeofStructMem]
        omega
      refine ⟨_, hcleared.chain, extent pre, by simp, by rw [← hplace.1], ?_⟩
      rw [hcleared.chain.dataSize]
      exact Nat.le_sub_of_add_le' (Nat.le_trans (Nat.add_le_add_left halign 12) hlen)
    · rw [hzero, malloc_zero] at hmalloc
      exact absurd (Prod.mk.inj (Option.some.inj hmalloc)).2.symm hp
    · exact absurd (h.found hmalloc hp) hrefused

theorem Owned.resize_blockOf (h : Owned s bs) (hmem : rmem ∈ s.live) (hn : 4 ∣ n) (hpos : 0 < n)
    (hfit : n + 24 < 2 ^ 32) (hcall : SmallMem.resize s.heap rmem n = some (t, p)) (hp : p ≠ 0) :
    BlockOf t p n := by
  obtain ⟨x, hx, rfl⟩ := h.mem_live hmem
  have hx' := hx
  have hmemOf := h.blocks.chain.memOf_start hx
  obtain ⟨pre, ⟨len, u⟩, post, rfl, rfl, rfl⟩ := mem_startsOf hx
  have hc := h.blocks.chain
  have hneed : u32 (n + sizeofStructMem + minSize) = n + 24 := u32_of_lt hfit
  unfold SmallMem.resize at hcall
  rw [Nat.zero_add] at hcall hmemOf hx'
  rw [hmemOf, hneed] at hcall
  split at hcall
  · rename_i hsame
    obtain ⟨rfl, rfl⟩ := Prod.mk.inj (Option.some.inj hcall)
    exact ⟨_, hc, extent pre, hx', rfl, Nat.le_of_eq hsame.symm⟩
  split at hcall
  · rename_i hlt
    obtain ⟨u, hshrink, heq⟩ := Option.map_eq_some_iff.mp hcall
    obtain ⟨rfl, rfl⟩ := Prod.mk.inj heq
    rw [hc.dataSize] at hlt
    obtain ⟨-, -, hnext⟩ := h.blocks.shrink_kept hn hlt hshrink
    obtain ⟨t', bs', ht', hblocks, hplace, hstarts⟩ := h.blocks.shrink hn hpos hlt
    obtain rfl := Option.some.inj (ht'.symm.trans hshrink)
    rw [← hstarts] at hx'
    have hdata := hblocks.chain.data_next hx'
    exact ⟨bs', hblocks.chain, extent pre, hx', by rw [hplace.1], by omega⟩
  · rcases h.blocks.move_kept hx' (by omega) hcall with ⟨rfl, -⟩ | ⟨hplace, -, w, bs', hchain, hw,
      rfl, hroom, -⟩
    · exact absurd rfl hp
    · exact ⟨bs', hchain, w, hw, by rw [hplace.1], hroom⟩

theorem Owned.serves_realloc (h : Owned s bs) (hmem : rmem = 0 ∨ rmem ∈ s.live)
    (hsize : newsize < 2 ^ 32) : Serves s (.realloc rmem newsize) := by
  intro t p hcall hp
  have hnone {heap : Heap} : some (heap, 0) = some (t, p) → BlockOf t p newsize := fun heq =>
    absurd (Prod.mk.inj (Option.some.inj heq)).2.symm hp
  change rtRealloc s.heap rmem newsize = some (t, p) at hcall
  unfold rtRealloc at hcall
  by_cases hbig : rtAlign newsize rtAlignSize > s.heap.memSizeAligned
  · rw [if_pos hbig] at hcall
    exact hnone hcall
  rw [if_neg hbig] at hcall
  by_cases hzero : rtAlign newsize rtAlignSize = 0
  · rw [if_pos hzero] at hcall
    obtain ⟨heap, -, heq⟩ := Option.map_eq_some_iff.mp hcall
    exact absurd (Prod.mk.inj heq).2.symm hp
  rw [if_neg hzero] at hcall
  have hfits : newsize + 3 < 2 ^ 32 := by
    by_contra hwraps
    exact hzero (rtAlign_wraps hsize (by omega))
  have hlt := h.blocks.chain.heapEnd_lt
  refine BlockOf.mono ?_ (rtAlign_four hfits).1
  by_cases hnull : rmem = 0
  · rw [if_pos hnull] at hcall
    exact ((h.blocks.malloc hcall).blockOf hp).mono (rtAlign_four (by omega)).1
  rw [if_neg hnull] at hcall
  have hlive := hmem.resolve_left hnull
  obtain ⟨pre, len, post, rfl, hptr⟩ := h.block hlive
  have hrange := h.blocks.chain.in_range
    (h.blocks.room _ (List.mem_append_right _ List.mem_cons_self) rfl)
  rw [← hptr] at hrange
  rw [if_neg hrange] at hcall
  have hend := h.blocks.chain.fits
  simp only [Heap.heapEnd, sizeofStructMem] at hend
  exact h.resize_blockOf hlive (dvd_rtAlign newsize rtAlignSize) (Nat.pos_of_ne_zero hzero)
    (by omega) hcall hp

theorem Owned.serves_iff {e : Event} (h : Owned s bs) (hallowed : Allowed s e)
    (hword : WordSized e) : Serves s e ↔ Unwrapped s e := by
  cases e with
  | malloc size => exact h.serves_malloc_iff
  | calloc count size => exact h.serves_calloc_iff
  | realloc rmem newsize => exact iff_of_true (h.serves_realloc hallowed hword) trivial
  | free rmem => exact iff_of_true (fun _ _ hcall => (by cases hcall)) trivial
  | store rmem i v => exact iff_of_true (fun _ _ hcall => (by cases hcall)) trivial

end

/-- In a run of good steps a pointer that a call returns has room for what the call asks for
exactly if the request does not wrap, or is refused as it is then. -/
theorem serves_throughout_iff (mem : Mem) (beginAddr endAddr : Nat) (hend : endAddr < 2 ^ 32)
    (s : HeapRun) (hstart : start mem beginAddr endAddr = some s) (es : List Event)
    (hgood : Along step Good s es) : Throughout step (fun s => ∀ e, Allowed s e → WordSized e →
      (Serves s e ↔ Unwrapped s e)) s es :=
  throughout_of_along (fun _ ⟨_, h⟩ _ hallowed hword => h.serves_iff hallowed hword)
    (fun _ _ _ h hgood hstep => Owned.step h hgood hstep) (start_owned hend hstart) hgood

theorem serves_after_malloc : ∃ s, start (fun _ => 0) 0 200 = some s ∧
    Throughout step (fun s => ∀ e, Allowed s e → WordSized e → (Serves s e ↔ Unwrapped s e)) s
      [.malloc 10, .free 12] := by
  obtain ⟨s, hs⟩ : ∃ s, start (fun _ => 0) 0 200 = some s := ⟨_, rfl⟩
  exact ⟨s, hs, serves_throughout_iff _ 0 200 (by decide) s hs _
    fun _ _ => ⟨trivial, fun _ _ => ⟨trivial, trivial⟩⟩⟩

/-- All bytes of the address space are asked for, and a block of twelve is given. -/
theorem all_bytes_not_served : ∃ s, start (fun _ => 0) 0 200 = some s ∧
    ¬ Serves s (.malloc 0xFFFFFFFF) := by
  obtain ⟨s, hs⟩ : ∃ s, start (fun _ => 0) 0 200 = some s := ⟨_, rfl⟩
  have hrun : (start (fun _ => 0) 0 200).bind (fun s => (rtMalloc s.heap 0xFFFFFFFF).map (·.2)) =
      some 12 := by decide +kernel
  rw [hs, Option.bind_some] at hrun
  obtain ⟨⟨t, p⟩, hcall, hp⟩ := Option.map_eq_some_iff.mp hrun
  refine ⟨s, hs, fun hserves => ?_⟩
  have hne : p ≠ 0 := fun hzero => absurd (hp.symm.trans hzero) (by decide)
  have hlt := (hserves t p hcall hne).lt
  simp only [asked] at hlt
  omega

end ControlRTT.Kernel.SmallMem

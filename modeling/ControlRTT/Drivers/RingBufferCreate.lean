import ControlRTT.Drivers.RingBuffer

/-! # Creating a ring buffer (ringbuffer.c)

The structure and its pool are two blocks of the heap. Where there is no memory for the pool the
structure is freed, and the freed block is returned (`creates_iff`). -/
namespace ControlRTT.Drivers.RingBufferCreate
open ControlRTT.Kernel.RtDef ControlRTT.Lib.CInt ControlRTT.Drivers.RingBuffer

/-- `sizeof(struct rt_ringbuffer)`. -/
def sizeofRtRingbuffer : Nat := 12

/-- The blocks of the heap that have not been freed, what the call returns, and the structure that
it has filled. -/
structure Outcome where
  live : List Nat
  result : Option Nat
  buffer : Option RtRingbuffer := none

section
variable (malloc : List Nat → Nat → Option Nat) (bytes : Nat → Byte) (live : List Nat)

/-- `rt_malloc` and the first bytes of the new pool are parameters. Without a result the call does
not return: an assertion on the size fails, which is a `rt_int16_t` in `rt_ringbuffer_init`. -/
def rtRingbufferCreate (size : Nat) : Option Outcome :=
  if 0 < size then
    let size := rtAlignDown size rtAlignSize
    match malloc live sizeofRtRingbuffer with
    | none => some { live := live, result := none }
    | some rb =>
      match malloc (rb :: live) size with
      | none => some { live := (rb :: live).erase rb, result := some rb }
      | some pool =>
        if 0 < (BitVec.ofNat 16 size).toInt then
          some { live := pool :: rb :: live, result := some rb, buffer := some (.init bytes size) }
        else none
  else none

/-- A block for the structure, and one for the pool. -/
def Allocates (size rb pool : Nat) : Prop :=
  malloc live sizeofRtRingbuffer = some rb ∧
    malloc (rb :: live) (rtAlignDown size rtAlignSize) = some pool

/-- The call returns; without both blocks its result is null and nothing is left in the heap; a
result is a block that has not been freed; and with both blocks it is an empty buffer of the
length, rounded down, all of it free. -/
def Creates (size : Nat) : Prop :=
  ∃ o, rtRingbufferCreate malloc bytes live size = some o ∧
    ((¬∃ rb pool, Allocates malloc live size rb pool) → o.result = none ∧ o.live = live) ∧
    (∀ p, o.result = some p → p ∈ o.live) ∧
    ∀ rb pool, Allocates malloc live size rb pool → o.result = some rb ∧
      o.live = pool :: rb :: live ∧ ∃ b, o.buffer = some b ∧ b.contents = [] ∧
        b.bufferSize = rtAlignDown size rtAlignSize ∧ b.spaceLen = b.bufferSize

/-- There is no memory for the structure, or memory for both and a length that a `rt_int16_t`
keeps. -/
def Creatable (size : Nat) : Prop :=
  0 < size ∧ (malloc live sizeofRtRingbuffer = none ∨
    (∃ rb pool, Allocates malloc live size rb pool) ∧
      0 < rtAlignDown size rtAlignSize ∧ rtAlignDown size rtAlignSize < 2 ^ 15)

end

section
variable {malloc : List Nat → Nat → Option Nat} {bytes : Nat → Byte} {live : List Nat}
  {size n rb pool : Nat}

theorem toInt_pos (h : n < 2 ^ 16) : 0 < (BitVec.ofNat 16 n).toInt ↔ 0 < n ∧ n < 2 ^ 15 := by
  have hn : (BitVec.ofNat 16 n).toNat = n := by
    rw [BitVec.toNat_ofNat]
    exact Nat.mod_eq_of_lt h
  rw [BitVec.toInt_eq_toNat_cond, hn]
  split <;> omega

theorem rtAlignDown_twice (size : Nat) :
    rtAlignDown (rtAlignDown size rtAlignSize) rtAlignSize = rtAlignDown size rtAlignSize := by
  unfold rtAlignDown rtAlignSize
  omega

theorem init_contents (bytes : Nat → Byte) (size : Nat) :
    (RtRingbuffer.init bytes size).contents = [] := rfl

/-- Without memory for the structure the call gives up. -/
theorem create_none (hsize : 0 < size) (hrb : malloc live sizeofRtRingbuffer = none) :
    rtRingbufferCreate malloc bytes live size = some { live := live, result := none } := by
  unfold rtRingbufferCreate
  rw [if_pos hsize, hrb]

/-- Without memory for the pool it returns what it has freed. -/
theorem create_freed (hsize : 0 < size) (hrb : malloc live sizeofRtRingbuffer = some rb)
    (hpool : malloc (rb :: live) (rtAlignDown size rtAlignSize) = none) :
    rtRingbufferCreate malloc bytes live size = some { live := live, result := some rb } := by
  unfold rtRingbufferCreate
  rw [if_pos hsize, hrb]
  dsimp only
  rw [hpool]
  dsimp only
  rw [List.erase_cons_head]

/-- With both blocks it fills the structure, if the length is one. -/
theorem create_both (hsize : 0 < size) (hword : size < 2 ^ 16)
    (hboth : Allocates malloc live size rb pool) :
    rtRingbufferCreate malloc bytes live size =
      if 0 < rtAlignDown size rtAlignSize ∧ rtAlignDown size rtAlignSize < 2 ^ 15 then
        some { live := pool :: rb :: live
               result := some rb
               buffer := some (.init bytes (rtAlignDown size rtAlignSize)) }
      else none := by
  obtain ⟨hrb, hpool⟩ := hboth
  unfold rtRingbufferCreate
  rw [if_pos hsize, hrb]
  dsimp only
  rw [hpool]
  exact if_congr (toInt_pos (Nat.lt_of_le_of_lt (rtAlignDown_le size _) hword)) rfl rfl

/-- A buffer that has been filled has the length, rounded down. -/
theorem create_buffer (hword : size < 2 ^ 16) {o : Outcome} {b : RtRingbuffer}
    (hcall : rtRingbufferCreate malloc bytes live size = some o) (hbuffer : o.buffer = some b) :
    (0 < rtAlignDown size rtAlignSize ∧ rtAlignDown size rtAlignSize < 2 ^ 15) ∧
      b = .init bytes (rtAlignDown size rtAlignSize) := by
  obtain ⟨hsize, hcall'⟩ := Option.ite_none_right_eq_some.mp hcall
  cases hrb : malloc live sizeofRtRingbuffer with
  | none =>
    obtain rfl := Option.some.inj ((create_none hsize hrb).symm.trans hcall)
    cases hbuffer
  | some rb =>
    cases hpool : malloc (rb :: live) (rtAlignDown size rtAlignSize) with
    | none =>
      obtain rfl := Option.some.inj ((create_freed hsize hrb hpool).symm.trans hcall)
      cases hbuffer
    | some pool =>
      rw [create_both hsize hword ⟨hrb, hpool⟩] at hcall
      obtain ⟨hfits, heq⟩ := Option.ite_none_right_eq_some.mp hcall
      obtain rfl := Option.some.inj heq
      exact ⟨hfits, (Option.some.inj hbuffer).symm⟩

theorem Allocates.unique {rb' pool' : Nat} (h : Allocates malloc live size rb pool)
    (h' : Allocates malloc live size rb' pool') : rb = rb' ∧ pool = pool' := by
  obtain rfl := Option.some.inj (h.1.symm.trans h'.1)
  exact ⟨rfl, Option.some.inj (h.2.symm.trans h'.2)⟩

end

/-- The call does what is promised exactly if there is no memory for the structure, or memory for
both blocks and the length, rounded down, is positive as a `rt_int16_t`. -/
theorem creates_iff (malloc : List Nat → Nat → Option Nat)
    (hfresh : ∀ live n p, malloc live n = some p → p ∉ live) (bytes : Nat → Byte)
    (live : List Nat) (size : Nat) (hword : size < 2 ^ 16) :
    Creates malloc bytes live size ↔ Creatable malloc live size := by
  unfold Creates Creatable
  rcases Nat.eq_zero_or_pos size with rfl | hsize
  · refine iff_of_false ?_ fun h => Nat.lt_irrefl 0 h.1
    rintro ⟨o, hcall, -⟩
    cases hcall
  rw [and_iff_right hsize]
  cases hrb : malloc live sizeofRtRingbuffer with
  | none =>
    refine iff_of_true ⟨_, create_none hsize hrb, fun _ => ⟨rfl, rfl⟩, ?_, ?_⟩ (.inl rfl)
    · exact fun p hp => (by cases hp)
    · exact fun rb pool h => absurd (hrb.symm.trans h.1) (by simp)
  | some rb =>
    cases hpool : malloc (rb :: live) (rtAlignDown size rtAlignSize) with
    | none =>
      have hnot : ¬∃ rb pool, Allocates malloc live size rb pool := by
        rintro ⟨rb', pool, h⟩
        obtain rfl := Option.some.inj (hrb.symm.trans h.1)
        exact absurd (hpool.symm.trans h.2) (by simp)
      refine iff_of_false ?_ fun h => hnot (h.resolve_left (by simp)).1
      rintro ⟨o, hcall, -, hlive, -⟩
      obtain rfl := Option.some.inj ((create_freed hsize hrb hpool).symm.trans hcall)
      exact hfresh _ _ _ hrb (hlive rb rfl)
    | some pool =>
      have hboth : Allocates malloc live size rb pool := ⟨hrb, hpool⟩
      have hcreate := @create_both malloc bytes live size rb pool hsize hword hboth
      by_cases hfits : 0 < rtAlignDown size rtAlignSize ∧ rtAlignDown size rtAlignSize < 2 ^ 15
      · rw [if_pos hfits] at hcreate
        refine iff_of_true ⟨_, hcreate, fun hnot => absurd ⟨rb, pool, hboth⟩ hnot, ?_, ?_⟩
          (.inr ⟨⟨rb, pool, hboth⟩, hfits⟩)
        · intro p hp
          obtain rfl := Option.some.inj hp
          exact List.mem_cons_of_mem _ List.mem_cons_self
        · intro rb' pool' h
          obtain ⟨rfl, rfl⟩ := hboth.unique h
          exact ⟨rfl, rfl, _, rfl, init_contents _ _, rtAlignDown_twice size, Nat.sub_zero _⟩
      · rw [if_neg hfits] at hcreate
        refine iff_of_false ?_ fun h => hfits (h.resolve_left (by simp)).2
        rintro ⟨o, hcall, -⟩
        rw [hcreate] at hcall
        cases hcall

/-- A heap with memory for so many blocks, each of them behind the others. -/
def smallHeap (blocks : Nat) (live : List Nat) (n : Nat) : Option Nat :=
  if n = 0 ∨ live.length ≥ blocks then none else some (live.foldr max 0 + 16)

theorem le_foldr_max {live : List Nat} {p : Nat} (h : p ∈ live) : p ≤ live.foldr max 0 := by
  induction live with
  | nil => cases h
  | cons q live ih =>
    rw [List.foldr_cons]
    rcases List.mem_cons.mp h with rfl | h
    · exact Nat.le_max_left _ _
    · exact Nat.le_trans (ih h) (Nat.le_max_right _ _)

theorem smallHeap_fresh (blocks : Nat) (live : List Nat) (n p : Nat)
    (h : smallHeap blocks live n = some p) : p ∉ live := fun hmem => by
  obtain ⟨-, hp⟩ := Option.ite_none_left_eq_some.mp h
  have hle := le_foldr_max hmem
  have heq := Option.some.inj hp
  omega

theorem creates_iff_small : Creates (smallHeap 2) (fun _ => 0) [] 10 ↔
    Creatable (smallHeap 2) [] 10 :=
  creates_iff (smallHeap 2) (smallHeap_fresh 2) (fun _ => 0) [] 10 (by decide)

/-- There is memory for the structure only: the result has been freed. -/
theorem freed_returned : ¬Creates (smallHeap 1) (fun _ => 0) [] 64 := by
  rintro ⟨o, hcall, -, hlive, -⟩
  have hfreed := @create_freed (smallHeap 1) (fun _ => 0) [] 64 16 (by decide) (by decide)
    (by decide)
  obtain rfl := Option.some.inj (hfreed.symm.trans hcall)
  cases hlive 16 rfl

end ControlRTT.Drivers.RingBufferCreate

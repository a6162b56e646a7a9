import ControlRTT.Lib.ByteMem

/-! # Accesses to a byte memory, and memories that agree off some addresses

An access is an address with a number of bytes. Two memories that agree off some addresses yield
the same value to an access that covers none of them (`AgreeOff.load`), and what is then written
to both they agree on (`AgreeOff.store`). -/
namespace ControlRTT.Lib.ByteMem

structure Access where
  addr : BitVec 32
  size : Nat
  deriving DecidableEq, Repr

/-- The byte is one of those that are accessed. -/
def Access.covers (x : Access) (b : BitVec 32) : Bool := decide ((b - x.addr).toNat < x.size)

/-- The bytes from an address on, the low one first. -/
def load (m : Bytes) (a : BitVec 32) : Nat → BitVec 32
  | 0 => 0
  | n + 1 => load m (a + 1) n <<< 8 ||| (m a).setWidth 32

def store (m : Bytes) (x : Access) (v : BitVec 32) : Bytes := fun b =>
  if x.covers b then v.extractLsb' (8 * (b - x.addr).toNat) 8 else m b

/-- Bytes put down from an address on. -/
def put (m : Bytes) (a : BitVec 32) (bytes : List (BitVec 8)) : Bytes := fun b =>
  bytes[(b - a).toNat]?.getD (m b)

/-- The addresses that an access does not cover. -/
def Access.rest (x : Access) (off : BitVec 32 → Bool) : BitVec 32 → Bool := fun b =>
  off b && !x.covers b

/-- The access covers none of the addresses. -/
def Access.Avoids (x : Access) (off : BitVec 32 → Bool) : Prop :=
  ∀ i < x.size, off (x.addr + BitVec.ofNat 32 i) = false

instance (x : Access) (off : BitVec 32 → Bool) : Decidable (x.Avoids off) :=
  inferInstanceAs (Decidable (∀ i < x.size, _))

def AgreeOff (off : BitVec 32 → Bool) (m m' : Bytes) : Prop := ∀ b, off b = false → m b = m' b

variable {m m' : Bytes} {off off' : BitVec 32 → Bool}

theorem Access.covers_iff {x : Access} {b : BitVec 32} :
    x.covers b ↔ (b - x.addr).toNat < x.size := by
  simp [covers]

theorem Access.Avoids.of_covers {x : Access} {b : BitVec 32} (h : x.Avoids off)
    (hb : x.covers b) : off b = false := by
  have hoff := h _ (covers_iff.mp hb)
  rwa [BitVec.ofNat_toNat, BitVec.setWidth_eq, BitVec.add_comm, BitVec.sub_add_cancel] at hoff

theorem Access.avoids_of_disjoint {x : Access} (hsize : x.size ≤ 2 ^ 32)
    (h : ∀ b, off b → x.covers b = false) : x.Avoids off := by
  intro i hi
  by_contra hoff
  rw [Bool.not_eq_false] at hoff
  have hcovers : x.covers (x.addr + BitVec.ofNat 32 i) := by
    rw [covers_iff, BitVec.add_comm, BitVec.add_sub_cancel, BitVec.toNat_ofNat,
      Nat.mod_eq_of_lt (Nat.lt_of_lt_of_le hi hsize)]
    exact hi
  rw [h _ hoff] at hcovers
  cases hcovers

@[simp] theorem Access.rest_nil (a : BitVec 32) (off : BitVec 32 → Bool) :
    (Access.mk a 0).rest off = off := by
  funext b
  simp [Access.rest, Access.covers]

theorem Access.rest_subset {x : Access} {b : BitVec 32} (h : x.rest off b) : off b :=
  Bool.and_elim_left h

/-- The bytes behind the first one. -/
theorem Access.covers_succ {a b : BitVec 32} {n : Nat} (h : (Access.mk (a + 1) n).covers b) :
    (Access.mk a (n + 1)).covers b := by
  rw [covers_iff] at h ⊢
  have hsub : b - a = b - (a + 1) + 1 := by bv_omega
  rw [hsub, BitVec.toNat_add]
  exact Nat.lt_of_le_of_lt (Nat.mod_le _ _) (Nat.succ_lt_succ h)

theorem load_congr {a : BitVec 32} {n : Nat}
    (h : ∀ b, (Access.mk a n).covers b → m b = m' b) : load m a n = load m' a n := by
  induction n generalizing a with
  | zero => rfl
  | succ n ih =>
    have hfirst : m a = m' a := h a (by simp [Access.covers])
    have hrest : load m (a + 1) n = load m' (a + 1) n :=
      ih fun b hb => h b (Access.covers_succ hb)
    rw [load, load, hfirst, hrest]

theorem AgreeOff.mono (h : AgreeOff off m m') (hsub : ∀ b, off b → off' b) :
    AgreeOff off' m m' := by
  intro b hb
  refine h b ?_
  by_contra hoff
  rw [Bool.not_eq_false] at hoff
  rw [hsub b hoff] at hb
  cases hb

theorem AgreeOff.load (h : AgreeOff off m m') {x : Access} (hx : x.Avoids off) :
    load m x.addr x.size = load m' x.addr x.size :=
  load_congr fun b hb => h b (hx.of_covers hb)

/-- A byte that is not one of the rest is covered, or is none of the addresses. -/
theorem AgreeOff.of_rest (h : AgreeOff off m m') {x : Access} {b : BitVec 32}
    (hb : x.rest off b = false) (hcover : ¬ x.covers b) : m b = m' b := by
  refine h b ?_
  rw [Bool.not_eq_true] at hcover
  simpa [Access.rest, hcover] using hb

theorem AgreeOff.store (h : AgreeOff off m m') (x : Access) (v : BitVec 32) :
    AgreeOff (x.rest off) (store m x v) (store m' x v) := by
  intro b hb
  simp only [ByteMem.store]
  split
  · rfl
  · rename_i hcover
    exact h.of_rest hb hcover

theorem AgreeOff.put (h : AgreeOff off m m') (a : BitVec 32) (bytes : List (BitVec 8)) :
    AgreeOff ((Access.mk a bytes.length).rest off) (put m a bytes) (put m' a bytes) := by
  intro b hb
  simp only [ByteMem.put]
  by_cases hcover : (b - a).toNat < bytes.length
  · rw [List.getElem?_eq_getElem hcover, Option.getD_some, Option.getD_some]
  · rw [List.getElem?_eq_none (Nat.le_of_not_lt hcover), Option.getD_none, Option.getD_none]
    exact h.of_rest hb fun hcovers => hcover (Access.covers_iff.mp hcovers)

/-! ## What is stored and loaded again -/

/-- No byte is accessed by both. -/
def Access.Disjoint (x y : Access) : Prop := ∀ b, x.covers b → y.covers b = false

theorem load_store_of_disjoint {x y : Access} (h : x.Disjoint y) (m : Bytes) (v : BitVec 32) :
    load (store m y v) x.addr x.size = load m x.addr x.size :=
  load_congr fun b hb => if_neg (by rw [h b hb]; decide)

/-- A word is told by its bytes, the low one first. -/
theorem load_word {a v : BitVec 32}
    (h : ∀ i < 4, m (a + BitVec.ofNat 32 i) = (v >>> (8 * i)).setWidth 8) : load m a 4 = v := by
  have h0 : m a = v.setWidth 8 := by simpa using h 0 (by decide)
  have h1 : m (a + 1) = (v >>> 8).setWidth 8 := h 1 (by decide)
  have h2 : m (a + 1 + 1) = (v >>> 16).setWidth 8 := by
    have := h 2 (by decide)
    rwa [show a + BitVec.ofNat 32 2 = a + 1 + 1 by bv_omega] at this
  have h3 : m (a + 1 + 1 + 1) = (v >>> 24).setWidth 8 := by
    have := h 3 (by decide)
    rwa [show a + BitVec.ofNat 32 3 = a + 1 + 1 + 1 by bv_omega] at this
  simp only [load, h0, h1, h2, h3]
  refine BitVec.eq_of_getLsbD_eq fun i hi => ?_
  simp only [BitVec.getLsbD_or, BitVec.getLsbD_shiftLeft, BitVec.getLsbD_setWidth,
    BitVec.getLsbD_ushiftRight]
  grind

theorem load_store_self (m : Bytes) (a v : BitVec 32) : load (store m ⟨a, 4⟩ v) a 4 = v := by
  refine load_word fun i hi => ?_
  have hsub : a + BitVec.ofNat 32 i - a = BitVec.ofNat 32 i := by
    rw [BitVec.add_comm, BitVec.add_sub_cancel]
  have hnat : (BitVec.ofNat 32 i).toNat = i := by
    rw [BitVec.toNat_ofNat]
    omega
  have hcovers : (Access.mk a 4).covers (a + BitVec.ofNat 32 i) := by
    rw [Access.covers_iff, hsub, hnat]
    exact hi
  rw [store, if_pos hcovers, hsub, hnat]
  refine BitVec.eq_of_getLsbD_eq fun j hj => ?_
  simp only [BitVec.getLsbD_extractLsb', BitVec.getLsbD_setWidth, BitVec.getLsbD_ushiftRight]

theorem load_byte (m : Bytes) (a : BitVec 32) : load m a 1 = (m a).setWidth 32 := by
  simp [load]

/-- Near a base, at a distance that does not wrap. -/
theorem Access.covers_offset {a b : BitVec 32} {i k : Nat} (h : i + k ≤ 2 ^ 32) (hpos : 0 < k) :
    (Access.mk (a + BitVec.ofNat 32 i) k).covers b ↔
      i ≤ (b - a).toNat ∧ (b - a).toNat < i + k := by
  have hsub : b - (a + BitVec.ofNat 32 i) = (b - a) - BitVec.ofNat 32 i := by bv_omega
  rw [covers_iff]
  dsimp only
  rw [hsub, BitVec.toNat_sub, BitVec.toNat_ofNat]
  have hlt := (b - a).isLt
  omega

theorem Access.disjoint_of_offsets {a : BitVec 32} {i j k l : Nat}
    (hapart : i + k ≤ j ∨ j + l ≤ i) (hi : i + k ≤ 2 ^ 32) (hj : j + l ≤ 2 ^ 32) (hk : 0 < k)
    (hl : 0 < l) :
    (Access.mk (a + BitVec.ofNat 32 i) k).Disjoint ⟨a + BitVec.ofNat 32 j, l⟩ := by
  intro b hb
  rw [← Bool.not_eq_true, covers_offset hj hl]
  rw [covers_offset hi hk] at hb
  omega

theorem put_of_lt {a : BitVec 32} {bytes : List (BitVec 8)} {i : Nat} (hi : i < bytes.length)
    (hlt : bytes.length ≤ 2 ^ 32) : put m a bytes (a + BitVec.ofNat 32 i) = bytes[i] := by
  have hsub : (a + BitVec.ofNat 32 i - a).toNat = i := by
    rw [BitVec.add_comm, BitVec.add_sub_cancel, BitVec.toNat_ofNat]
    exact Nat.mod_eq_of_lt (Nat.lt_of_lt_of_le hi hlt)
  rw [put, hsub, List.getElem?_eq_getElem hi, Option.getD_some]

theorem put_of_not_covers {a b : BitVec 32} {bytes : List (BitVec 8)}
    (h : (Access.mk a bytes.length).covers b = false) : put m a bytes b = m b := by
  rw [← Bool.not_eq_true, Access.covers_iff] at h
  rw [put, List.getElem?_eq_none (Nat.le_of_not_lt h), Option.getD_none]

end ControlRTT.Lib.ByteMem

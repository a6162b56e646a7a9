import ControlRTT.Lib.CInt

/-! # Flash memory that is programmed by the word

A byte-addressed memory in which programming a word can only clear bits: the
word read back is the one before, and'ed with the one programmed. Erasing a region sets
all its bits. -/
namespace ControlRTT.Lib.NorFlash
open ControlRTT.Lib.CInt

abbrev Word := BitVec 32

/-- Contents by byte address. -/
abbrev Mem := Nat → Byte

/-- An erased word. -/
def blank : Word := 0xFFFFFFFF#32

/-- Byte `i` of a word, least significant first. -/
def byteOf (w : Word) (i : Nat) : Byte := w.extractLsb' (8 * i) 8

/-- The word of four bytes, least significant first. -/
def wordOf (b : Nat → Byte) : Word := b 3 ++ b 2 ++ b 1 ++ b 0

/-- The word at an address, least significant byte first. -/
def readWord (m : Mem) (a : Nat) : Word := wordOf fun i => m (a + i)

/-- Programming clears the bits that are zero in `w` and sets none. -/
def programWord (m : Mem) (a : Nat) (w : Word) : Mem := fun x =>
  if a ≤ x ∧ x < a + 4 then m x &&& byteOf w (x - a) else m x

/-! ## Bytes and words -/

theorem byteOf_wordOf (b : Nat → Byte) {i : Nat} (hi : i < 4) : byteOf (wordOf b) i = b i := by
  match i, hi with
  | 0, _ | 1, _ | 2, _ | 3, _ =>
    apply BitVec.eq_of_getLsbD_eq
    intro j hj
    simp only [byteOf, wordOf, BitVec.getLsbD_extractLsb', BitVec.getLsbD_append]
    grind

theorem wordOf_byteOf (w : Word) : wordOf (byteOf w) = w := by
  apply BitVec.eq_of_getLsbD_eq
  intro j hj
  simp only [byteOf, wordOf, BitVec.getLsbD_extractLsb', BitVec.getLsbD_append]
  grind

theorem wordOf_and (b c : Nat → Byte) :
    (wordOf fun i => b i &&& c i) = wordOf b &&& wordOf c := by
  simp only [wordOf]
  rw [BitVec.and_append, BitVec.and_append, BitVec.and_append]

theorem byteOf_and (v w : Word) (i : Nat) : byteOf (v &&& w) i = byteOf v i &&& byteOf w i := by
  apply BitVec.eq_of_getLsbD_eq
  intro j hj
  simp only [byteOf, BitVec.getLsbD_extractLsb', BitVec.getLsbD_and]
  grind

theorem wordOf_congr {b c : Nat → Byte} (h : ∀ i < 4, b i = c i) : wordOf b = wordOf c := by
  simp only [wordOf, h 0 (by decide), h 1 (by decide), h 2 (by decide), h 3 (by decide)]

@[simp] theorem and_blank (w : Word) : w &&& blank = w := BitVec.and_allOnes
@[simp] theorem blank_and (w : Word) : blank &&& w = w := BitVec.allOnes_and

/-- A memory with nothing but blank words. -/
def erased : Mem := fun _ => 0xFF#8

@[simp] theorem readWord_erased (a : Nat) : readWord erased a = blank := by
  change wordOf (fun _ => 0xFF#8) = blank
  decide

theorem byteOf_readWord (m : Mem) (a : Nat) {i : Nat} (hi : i < 4) :
    byteOf (readWord m a) i = m (a + i) := byteOf_wordOf _ hi

/-! ## Programming a word -/

theorem readWord_programWord_self (m : Mem) (a : Nat) (w : Word) :
    readWord (programWord m a w) a = readWord m a &&& w := by
  have hbytes : readWord (programWord m a w) a = wordOf fun i => m (a + i) &&& byteOf w i :=
    wordOf_congr fun i hi => by
      simp only [programWord]
      rw [if_pos ⟨by omega, by omega⟩, Nat.add_sub_cancel_left]
  rw [hbytes, wordOf_and, wordOf_byteOf]
  rfl

theorem programWord_outside (m : Mem) {a x : Nat} (w : Word) (h : x < a ∨ a + 4 ≤ x) :
    programWord m a w x = m x := if_neg (by omega)

/-- Clearing twice is clearing once. -/
theorem programWord_programWord (m : Mem) (a : Nat) (w : Word) :
    programWord (programWord m a w) a w = programWord m a w := by
  funext x
  unfold programWord
  split
  · rw [BitVec.and_assoc, BitVec.and_self]
  · rfl

/-! ## Erasing a region -/

def eraseRegion (m : Mem) (region : Nat → Bool) : Mem := fun x =>
  if region x then 0xFF#8 else m x

theorem readWord_eraseRegion_inside (m : Mem) {region : Nat → Bool} {a : Nat}
    (h : ∀ i < 4, region (a + i) = true) : readWord (eraseRegion m region) a = blank := by
  rw [← readWord_erased a]
  exact wordOf_congr fun i hi => if_pos (h i hi)

theorem readWord_eraseRegion_outside (m : Mem) {region : Nat → Bool} {a : Nat}
    (h : ∀ i < 4, region (a + i) = false) : readWord (eraseRegion m region) a = readWord m a :=
  wordOf_congr fun i hi => if_neg (by rw [h i hi]; decide)

end ControlRTT.Lib.NorFlash

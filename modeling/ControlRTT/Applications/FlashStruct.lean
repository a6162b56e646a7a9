import ControlRTT.Applications.FlashWrite

/-! # Saving and reading back a structure

`STMFLASH_WriteStruct` and `STMFLASH_ReadStruct` move whole words. A length that is
no multiple of four loses the bytes of the last, incomplete word on both ways: they
are not programmed, and they are read as zeros. -/
namespace ControlRTT.Applications.FlashStruct
open ControlRTT.Lib.CInt ControlRTT.Lib.NorFlash ControlRTT.Applications.Flash
open ControlRTT.Applications.FlashPlan ControlRTT.Applications.FlashWrite

/-- Word `i` of the structure, as `STMFLASH_WriteStruct` makes it. -/
def structWord (data : Nat → Byte) (i : Nat) : Word := memCTOI fun k => data (flashAline * i + k)

/-! ## Reading back -/

theorem byteOf_structWord (data : Nat → Byte) (j : Nat) :
    byteOf (structWord data (j / 4)) (j % 4) = data j := by
  unfold structWord memCTOI
  rw [byteOf_wordOf _ (Nat.mod_lt j (by decide)), flashAline, Nat.div_add_mod]

/-- A byte of a whole word is read from the flash. -/
theorem stmflashReadStruct_whole (m : Mem) (addr : Nat) {n j : Nat} (h : j < 4 * (n / 4)) :
    stmflashReadStruct m addr n j = byteOf (readWord m (addr + 4 * (j / 4))) (j % 4) := by
  have hin : j / 4 < n / 4 := by omega
  unfold stmflashReadStruct flashAline
  dsimp only
  rw [if_pos hin]
  rfl

/-- A byte of the incomplete word is read as zero. -/
theorem stmflashReadStruct_rest (m : Mem) (addr : Nat) {n j : Nat} (h : 4 * (n / 4) ≤ j) :
    stmflashReadStruct m addr n j = 0#8 := by
  have hout : ¬ j / 4 < n / 4 := by omega
  unfold stmflashReadStruct flashAline
  dsimp only
  rw [if_neg hout]
  unfold byteOf
  exact BitVec.extractLsb'_zero

/-- The bytes of the whole words are read as `data` exactly if the words are those of `data`. -/
theorem stmflashReadStruct_words (m : Mem) (addr n : Nat) (data : Nat → Byte) :
    (∀ j < 4 * (n / 4), stmflashReadStruct m addr n j = data j) ↔
      ∀ i < n / 4, readWord m (addr + 4 * i) = structWord data i := by
  constructor
  · intro h i hi
    have hbytes : ∀ k < 4, byteOf (readWord m (addr + 4 * i)) k = data (4 * i + k) := by
      intro k hk
      have hread := stmflashReadStruct_whole m addr (n := n) (j := 4 * i + k) (by omega)
      rw [h (4 * i + k) (by omega), show (4 * i + k) / 4 = i by omega,
        show (4 * i + k) % 4 = k by omega] at hread
      exact hread.symm
    calc readWord m (addr + 4 * i)
      _ = wordOf (byteOf (readWord m (addr + 4 * i))) := (wordOf_byteOf _).symm
      _ = wordOf fun k => data (4 * i + k) := wordOf_congr hbytes
  · intro h j hj
    rw [stmflashReadStruct_whole m addr hj, h (j / 4) (by omega), byteOf_structWord]

/-! ## The round trip -/

/-- If the structure is saved with success, it is read back byte by byte. -/
def RoundTrip (m : Mem) (addr n : Nat) (data : Nat → Byte) : Prop :=
  let r := stmflashWriteStruct allOk (.idle m) addr data n
  r.1 = .ok → ∀ j < n, stmflashReadStruct r.2.mem addr n j = data j

/-- **When a structure survives**: every whole word can be written, and the bytes after the
last whole word are zero. -/
theorem stmflashReadStruct_roundTrip_iff (m : Mem) (addr n : Nat) (data : Nat → Byte)
    (_ : n ≤ stmSectorSize) (ha : addr % 4 = 0) (lo : flashBase ≤ addr)
    (hi : addr < flashBase + 1024 * stm32FlashSize) :
    RoundTrip m addr n data ↔
      (∀ i < n / 4, Writable m addr (n / 4) (structWord data) i) ∧
        ∀ j < n, 4 * (n / 4) ≤ j → data j = 0#8 := by
  have hok : (stmflashWriteStruct allOk (.idle m) addr data n).1 = .ok :=
    stmflashWrite_status allOk (.idle m) addr (structWord data) (n / 4) lo hi
  have hword : ∀ i < n / 4,
      (readWord (stmflashWriteStruct allOk (.idle m) addr data n).2.mem (addr + 4 * i) =
        structWord data i ↔ Writable m addr (n / 4) (structWord data) i) :=
    fun i hlen => stmflashWrite_range_iff ha lo hi hlen
  unfold RoundTrip
  dsimp only
  generalize stmflashWriteStruct allOk (.idle m) addr data n = r at *
  have hwhole := stmflashReadStruct_words r.2.mem addr n data
  constructor
  · intro h
    refine ⟨fun i hlen => ?_, fun j hj hge => ?_⟩
    · exact (hword i hlen).mp (hwhole.mp (fun j hj => h hok j (by omega)) i hlen)
    · rw [← h hok j hj, stmflashReadStruct_rest r.2.mem addr hge]
  · intro ⟨hset, hzero⟩ _ j hj
    rcases Nat.lt_or_ge j (4 * (n / 4)) with hlow | hge
    · exact hwhole.mpr (fun i hlen => (hword i hlen).mpr (hset i hlen)) j hlow
    · rw [stmflashReadStruct_rest r.2.mem addr hge, hzero j hj hge]

/-- Two whole words and two zero bytes, saved to erased flash. -/
theorem stmflashReadStruct_roundTrip_iff_erased :
    RoundTrip erased flashDataAddress 10 (fun j => if j < 8 then 7#8 else 0#8) :=
  (stmflashReadStruct_roundTrip_iff erased flashDataAddress 10 _ (by decide) (by decide)
    (by decide) (by decide)).mpr
    ⟨fun i _ => ⟨fun _ => by rw [readWord_erased, blank_and], fun _ ⟨q, _, hrewrites⟩ =>
      absurd hrewrites.2.1 (dirty_erased q)⟩, fun j _ hge => if_neg (by omega)⟩

/-- The record has 27 bytes; the last, `houJiaoDu`, is 20 when saved and 0 when read back. -/
theorem stmflashReadStruct_loses_last_byte :
    ¬ ∀ (m : Mem) (addr n : Nat) (data : Nat → Byte), n ≤ stmSectorSize → addr % 4 = 0 →
      flashBase ≤ addr → addr + n ≤ flashBase + 1024 * stm32FlashSize →
        RoundTrip m addr n data := by
  intro h
  have hok :
      (stmflashWriteStruct allOk (.idle erased) flashDataAddress (fun _ => 20#8) 27).1 = .ok :=
    stmflashWrite_status allOk (.idle erased) flashDataAddress _ _ (by decide) (by decide)
  have hread := h erased flashDataAddress 27 (fun _ => 20#8) (by decide) (by decide) (by decide)
    (by decide) hok 26 (by decide)
  rw [stmflashReadStruct_rest _ flashDataAddress (by decide)] at hread
  exact absurd hread (by decide)

end ControlRTT.Applications.FlashStruct

import ControlRTT.Applications.FlashAnswers

/-! # What a call of `STMFLASH_Write` sets out to program

The loop has a round for each software page of the range (`Touched`). A round that finds its
page not blank (`Rewrites`) erases and programs all of it; the others program the words of
the range alone. The words are programmed in increasing order (`Planned`), and which of them
the HAL accepts (`Accepts`) follows from its answers for them. -/
namespace ControlRTT.Applications.FlashPlan
open ControlRTT.Lib.CInt ControlRTT.Lib.NorFlash ControlRTT.Applications.Flash
open ControlRTT.Applications.FlashAnswers

/-! ## The sector that is erased -/

/-- The byte lies in the hardware sector 0. -/
def InSector0 (x : Nat) : Prop := sectorOf x = some 0

instance (x : Nat) : Decidable (InSector0 x) := inferInstanceAs (Decidable (_ = _))

theorem inSector0_iff {x : Nat} : InSector0 x ↔ flashBase ≤ x ∧ x < flashBase + 0x4000 := by
  unfold InSector0 sectorOf
  simp only [flashBase]
  grind

/-- **The driver passes an address where a sector number is expected**: its five low bits are
zeros, so that every erase is one of sector 0. -/
theorem eraseNumber_mod (a : Nat) : eraseNumber a % 32 = 0 := by
  unfold eraseNumber
  omega

theorem flashEraseSector_eraseNumber (d : FlashDev) (a : Nat) :
    flashEraseSector d (eraseNumber a) =
      { d with mem := eraseRegion d.mem fun x => InSector0 x } := by
  unfold flashEraseSector
  rw [eraseNumber_mod]
  rfl

/-- An aligned word is erased as a whole or not at all. -/
theorem readWord_erased_sector (m : Mem) {a : Nat} (ha : a % 4 = 0) :
    readWord (eraseRegion m fun x => InSector0 x) a =
      if InSector0 a then blank else readWord m a := by
  have hb : flashBase % 4 = 0 := rfl
  split
  · next h =>
    rw [inSector0_iff] at h
    refine readWord_eraseRegion_inside m fun i hi => decide_eq_true (inSector0_iff.mpr ?_)
    omega
  · next h =>
    rw [inSector0_iff] at h
    refine readWord_eraseRegion_outside m fun i hi => decide_eq_false (mt inSector0_iff.mp ?_)
    omega

/-! ## Pages -/

/-- The address of the software page that holds `a`. -/
def pageStart (a : Nat) : Nat := (a - flashBase) / stmSectorSize * stmSectorSize + flashBase

def IsPage (p : Nat) : Prop := pageStart p = p

/-- `b` is the address of a word of the page at `p`. -/
def OnPage (p b : Nat) : Prop := ∃ j < pageWords, b = p + 4 * j

/-- Whether the page at `p` holds a word that is not blank. -/
def Dirty (m : Mem) (p : Nat) : Prop := needErase (stmflashRead_AllWord m p) = true

instance (p : Nat) : Decidable (IsPage p) := inferInstanceAs (Decidable (_ = _))
instance (p b : Nat) : Decidable (OnPage p b) := inferInstanceAs (Decidable (∃ j < pageWords, _))
instance (m : Mem) (p : Nat) : Decidable (Dirty m p) := inferInstanceAs (Decidable (_ = true))

theorem isPage_iff {p : Nat} : IsPage p ↔ ∃ k, p = k * stmSectorSize + flashBase := by
  refine ⟨fun h => ⟨_, h.symm⟩, ?_⟩
  rintro ⟨k, rfl⟩
  unfold IsPage pageStart
  rw [Nat.add_sub_cancel, Nat.mul_div_cancel _ (by decide)]

theorem isPage_pageStart (a : Nat) : IsPage (pageStart a) := isPage_iff.mpr ⟨_, rfl⟩

theorem IsPage.le {p : Nat} (h : IsPage p) : flashBase ≤ p := by
  obtain ⟨k, rfl⟩ := isPage_iff.mp h
  exact Nat.le_add_left ..

theorem IsPage.aligned {p : Nat} (h : IsPage p) : p % 4 = 0 := by
  obtain ⟨k, rfl⟩ := isPage_iff.mp h
  have hb : flashBase % 4 = 0 := rfl
  simp only [stmSectorSize]
  omega

/-- Two pages that share an address are the same. -/
theorem IsPage.unique {p q b : Nat} (hp : IsPage p) (hq : IsPage q) (lo : p ≤ b)
    (hi : b < p + stmSectorSize) (lo' : q ≤ b) (hi' : b < q + stmSectorSize) : p = q := by
  obtain ⟨k, rfl⟩ := isPage_iff.mp hp
  obtain ⟨l, rfl⟩ := isPage_iff.mp hq
  generalize flashBase = base at *
  simp only [stmSectorSize] at *
  omega

/-- Of two pages the one that starts lower also ends before the other. -/
theorem IsPage.lt_iff {p q : Nat} (hp : IsPage p) (hq : IsPage q) :
    p < q ↔ p + stmSectorSize ≤ q := by
  obtain ⟨k, rfl⟩ := isPage_iff.mp hp
  obtain ⟨l, rfl⟩ := isPage_iff.mp hq
  generalize flashBase = base
  simp only [stmSectorSize]
  omega

theorem pageStart_bounds {a : Nat} (ha : flashBase ≤ a) :
    pageStart a ≤ a ∧ a < pageStart a + stmSectorSize := by
  simp only [pageStart]
  generalize flashBase = base at *
  simp only [stmSectorSize]
  omega

theorem pageStart_eq {p a : Nat} (hp : IsPage p) (lo : p ≤ a) (hi : a < p + stmSectorSize) :
    pageStart a = p := by
  have hbase : flashBase ≤ a := by
    obtain ⟨k, rfl⟩ := isPage_iff.mp hp
    omega
  obtain ⟨lo', hi'⟩ := pageStart_bounds hbase
  exact (isPage_pageStart a).unique hp lo' hi' lo hi

theorem pageStart_mono {a b : Nat} (ha : flashBase ≤ a) (h : a ≤ b) :
    pageStart a ≤ pageStart b := by
  unfold pageStart
  generalize flashBase = base at *
  simp only [stmSectorSize]
  omega

theorem onPage_iff {p b : Nat} (hp : IsPage p) :
    OnPage p b ↔ b % 4 = 0 ∧ p ≤ b ∧ b < p + stmSectorSize := by
  have h4 := hp.aligned
  simp only [OnPage, pageWords, stmSectorSize, flashAline]
  constructor
  · rintro ⟨j, hj, rfl⟩
    omega
  · rintro ⟨hb, lo, hi⟩
    exact ⟨(b - p) / 4, by omega, by omega⟩

theorem dirty_iff {m : Mem} {p : Nat} :
    Dirty m p ↔ ∃ j < pageWords, readWord m (p + 4 * j) ≠ blank := by
  simp [Dirty, needErase, stmflashRead_AllWord, stmflashReadAllWord]

/-- A page lies in sector 0 as a whole or not at all. -/
theorem IsPage.inSector0_iff {p a : Nat} (hp : IsPage p) (lo : p ≤ a)
    (hi : a < p + stmSectorSize) : InSector0 a ↔ InSector0 p := by
  obtain ⟨k, rfl⟩ := isPage_iff.mp hp
  rw [FlashPlan.inSector0_iff, FlashPlan.inSector0_iff]
  generalize flashBase = base at *
  simp only [stmSectorSize] at *
  omega

/-! ## The words a call programs -/

section Plan
variable (hal : HalAnswers) (m : Mem) (addr len : Nat)

/-- The page of the last round. -/
def lastPage : Nat := pageStart (addr + 4 * (len - 1))

/-- The loop has a round for the page at `p`. -/
def Touched (p : Nat) : Prop := IsPage p ∧ pageStart addr ≤ p ∧ p ≤ lastPage addr len

/-- The round of the page at `p` finds it not blank, erases sector 0 and programs the whole
page: in sector 0 the first round that does so leaves blank pages to the later ones. -/
def Rewrites (p : Nat) : Prop :=
  Touched addr len p ∧ Dirty m p ∧ (InSector0 p → ∀ q < p, Touched addr len q → ¬ Dirty m q)

/-- The loop programs the words of the range, and every word of a page that is rewritten. -/
def Planned (b : Nat) : Prop :=
  (∃ i < len, b = addr + 4 * i) ∨ Rewrites m addr len (pageStart b) ∧ OnPage (pageStart b) b

/-- The loop gives up no word below `b`. The words are programmed in increasing order,
each for the first time. -/
def Reached (b : Nat) : Prop := ∀ b' < b, Planned m addr len b' → ¬ Fails hal b' 0

/-- The round of the page at `p` takes place and erases sector 0. -/
def Erases (p : Nat) : Prop := Rewrites m addr len p ∧ Reached hal m addr len p

instance (p : Nat) : Decidable (Touched addr len p) := inferInstanceAs (Decidable (_ ∧ _))
instance (p : Nat) : Decidable (Rewrites m addr len p) :=
  inferInstanceAs (Decidable (_ ∧ _ ∧ (_ → ∀ q < p, _)))
instance (b : Nat) : Decidable (Planned m addr len b) := inferInstanceAs (Decidable (_ ∨ _))
instance (b : Nat) : Decidable (Reached hal m addr len b) :=
  inferInstanceAs (Decidable (∀ b' < b, _))
instance (p : Nat) : Decidable (Erases hal m addr len p) := inferInstanceAs (Decidable (_ ∧ _))

/-- The requests the loop makes for the word at `b` of its last page. -/
def askedFirst (b : Nat) : Nat := if Reached hal m addr len b then used hal b 0 else 0

/-- The page at `p` is programmed again at the label `WF`: the loop gives up one of its
words, or it is the last page and locking the flash fails. -/
def Repeated (p : Nat) : Prop :=
  Reached hal m addr len p ∧
    ((∃ b, p ≤ b ∧ b < p + stmSectorSize ∧ Planned m addr len b ∧ Fails hal b 0) ∨
      p = lastPage addr len ∧ hal.lock 0 = .error ∧
        ∀ b, Planned m addr len b → ¬ Fails hal b 0)

/-- The HAL accepts the word at `a`: in the loop, or in the second programming of a page
that was rewritten. -/
def Accepts (a : Nat) : Prop :=
  Reached hal m addr len a ∧ Takes hal a 0 ∨
  Rewrites m addr len (pageStart a) ∧ Repeated hal m addr len (pageStart a) ∧
    (∀ b < a, OnPage (pageStart a) b → ¬ Fails hal b (askedFirst hal m addr len b)) ∧
    Takes hal a (askedFirst hal m addr len a)

/-- Sector 0 is erased after the round of the word at `a`. -/
def Lost (a : Nat) : Prop :=
  InSector0 a ∧ ∃ q ≤ lastPage addr len, pageStart a < q ∧ Erases hal m addr len q

instance (a : Nat) : Decidable (Lost hal m addr len a) :=
  inferInstanceAs (Decidable (_ ∧ ∃ q ≤ _, _))

/-- The word at `a` when its round reads the page. -/
def found (a : Nat) : Word :=
  if InSector0 a ∧ ∃ q < pageStart a, Erases hal m addr len q then blank else readWord m a

/-- The word at `a` when its round programs it. -/
def base (a : Nat) : Word :=
  if InSector0 a ∧ ∃ q ≤ pageStart a, Erases hal m addr len q then blank else readWord m a

/-- What the round of the word at `a` programs there: the data, or on a page that is
rewritten what it found. -/
def wanted (data : Nat → Word) (a : Nat) : Word :=
  if addr ≤ a ∧ a < addr + 4 * len then data ((a - addr) / 4) else found hal m addr len a

end Plan

section
variable {hal : HalAnswers} {m : Mem} {addr len : Nat} {p b : Nat}

theorem Reached.mono {b' : Nat} (h : Reached hal m addr len b) (hle : b' ≤ b) :
    Reached hal m addr len b' := fun a ha => h a (by omega)

/-- When every call succeeds all words are accepted. -/
theorem reached_allOk (b : Nat) : Reached allOk m addr len b := fun b' _ _ => not_fails_allOk b' 0

theorem accepts_allOk (a : Nat) : Accepts allOk m addr len a :=
  .inl ⟨reached_allOk a, takes_allOk a 0⟩

theorem erases_allOk_iff : Erases allOk m addr len p ↔ Rewrites m addr len p :=
  and_iff_left (reached_allOk p)

theorem Rewrites.isPage (h : Rewrites m addr len p) : IsPage p := h.1.1

theorem wanted_range (data : Nat → Word) {i : Nat} (hi : i < len) :
    wanted hal m addr len data (addr + 4 * i) = data i := by
  unfold wanted
  rw [if_pos ⟨by omega, by omega⟩]
  exact congrArg data (by omega)

/-- No page is blank to a round unless it was before the call, or sector 0 has been erased. -/
theorem exists_rewrites (h : Touched addr len p) (hdirty : Dirty m p) :
    ∃ q ≤ p, Rewrites m addr len q := by
  induction p using Nat.strongRecOn with | _ p ih
  by_cases hfirst : ∃ q < p, Touched addr len q ∧ Dirty m q
  · obtain ⟨q, hq, htouched, hd⟩ := hfirst
    obtain ⟨q', hq', hrewrites⟩ := ih q hq htouched hd
    exact ⟨q', by omega, hrewrites⟩
  · exact ⟨p, le_rfl, h, hdirty, fun _ q hq ht hd => hfirst ⟨q, hq, ht, hd⟩⟩

/-- Of two pages that are rewritten the later one starts behind the earlier one. -/
theorem Erases.lt_iff {q : Nat} (hq : Erases hal m addr len q) (hp : IsPage p) :
    q < p + stmSectorSize ↔ q ≤ p := by
  have := hp.lt_iff hq.1.isPage
  omega

/-- A page in sector 0 that is rewritten is the first that the call does this with. -/
theorem Rewrites.first {q : Nat} (h : Rewrites m addr len p) (hs : InSector0 p)
    (hq : Erases hal m addr len q) : p ≤ q :=
  Nat.le_of_not_lt fun hlt => h.2.2 hs q hlt hq.1.1 hq.1.2.1

/-- The page of the last word of the range is the last that is programmed. -/
theorem planned_lt (lo : flashBase ≤ addr) (h : Planned m addr len b) :
    b < lastPage addr len + stmSectorSize := by
  have hlast := pageStart_bounds (a := addr + 4 * (len - 1)) (by omega)
  unfold lastPage
  obtain ⟨i, hi, rfl⟩ | ⟨hrewrites, hon⟩ := h
  · omega
  · have hle := hrewrites.1.2.2
    unfold lastPage at hle
    have := (onPage_iff (isPage_pageStart b)).mp hon
    omega

end

end ControlRTT.Applications.FlashPlan

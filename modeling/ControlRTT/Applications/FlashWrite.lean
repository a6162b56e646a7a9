import ControlRTT.Applications.FlashContents

/-! # What a call of `STMFLASH_Write` leaves in the flash

Whatever the HAL answers, a word holds what its round found there, or blanks if that round
erased sector 0, and'ed with what was programmed if the HAL accepts it; a later erase of the
sector blanks it again. The call reports success. -/
namespace ControlRTT.Applications.FlashWrite
open ControlRTT.Lib.CInt ControlRTT.Lib.NorFlash ControlRTT.Applications.Flash
open ControlRTT.Applications.FlashAnswers ControlRTT.Applications.FlashPlan
open ControlRTT.Applications.FlashLoop ControlRTT.Applications.FlashContents

section Whole
variable {hal : HalAnswers} {m : Mem} {addr len : Nat} {data : Nat → Word} {a : Nat}

/-! ## The label `WF` -/

/-- A blank series clears nothing. -/
theorem series_blank {p : Nat → Word} {n b : Nat} {d : FlashDev} {r : HalStatus × FlashDev}
    (h : Series hal b p n d r) (hp : ∀ j < n, p j = blank) : r.2.mem = d.mem := by
  funext x
  by_cases hx : b ≤ x ∧ x < b + 4 * n
  · have hword := h.word ((x - b) / 4) (by omega)
    rw [hp _ (by omega), and_blank, ite_self] at hword
    have hk : (x - b) % 4 < 4 := Nat.mod_lt _ (by decide)
    have hx' : x = b + 4 * ((x - b) / 4) + (x - b) % 4 := by omega
    have hnew := byteOf_readWord r.2.mem (b + 4 * ((x - b) / 4)) hk
    have hold := byteOf_readWord d.mem (b + 4 * ((x - b) / 4)) hk
    rw [hx', ← hnew, ← hold, hword]
  · exact h.outside x (by omega)

/-- The second programming of the page of the last round. -/
structure Again (hal : HalAnswers) (m : Mem) (addr len : Nat) (data : Nat → Word) (page : Nat)
    (mem mem' : Mem) : Prop where
  blank : ¬ Rewrites m addr len page → mem' = mem
  word : Rewrites m addr len page → ∀ j < pageWords, readWord mem' (page + 4 * j) =
    if (∀ i < j, ¬ Fails hal (page + 4 * i) (askedFirst hal m addr len (page + 4 * i))) ∧
        Takes hal (page + 4 * j) (askedFirst hal m addr len (page + 4 * j))
    then readWord mem (page + 4 * j) &&& wanted hal m addr len data (page + 4 * j)
    else readWord mem (page + 4 * j)
  outside : ∀ x, x < page ∨ page + stmSectorSize ≤ x → mem' x = mem x

theorem writeFailed_again {inv : Nat → Mem → Prop} {r : Round} {d : FlashDev}
    (h : RoundEnd hal m addr len data inv r) (hmem : d.mem = r.dev.mem)
    (hasked : d.asked = r.dev.asked) :
    Again hal m addr len data r.page r.dev.mem (writeFailed hal { r with dev := d }).2.mem := by
  have hsize : stmSectorSize = 4 * pageWords := rfl
  have hleft : (writeFailed hal { r with dev := d }).2.mem =
      (stmflashWriteNoCheck hal (halFlashUnlock hal d).2 r.page r.buf pageWords).2.mem := rfl
  have hmem : (halFlashUnlock hal d).2.mem = r.dev.mem := hmem
  have hasked : (halFlashUnlock hal d).2.asked = r.dev.asked := hasked
  rw [hleft]
  generalize (halFlashUnlock hal d).2 = q at *
  obtain ⟨-, -, -, word, outside, -⟩ := noCheck_series hal q r.page r.buf pageWords
  rw [hmem] at word outside
  refine ⟨fun hnot => ?_, fun hr j hj => ?_, fun x hx => outside x (by omega)⟩
  · exact (series_blank (noCheck_series hal q ..) (h.bufBlank hnot)).trans hmem
  · have hask : ∀ j < pageWords,
        q.asked (r.page + 4 * j) = askedFirst hal m addr len (r.page + 4 * j) := fun j hj => by
      have hon := (onPage_iff h.page).mp ⟨j, hj, rfl⟩
      rw [hasked]
      refine h.asked _ (.inr ?_) hon.2.1 hon.2.2
      rw [pageStart_eq h.page hon.2.1 hon.2.2]
      exact ⟨hr, j, hj, rfl⟩
    have hpasses : Passes hal q.asked r.page j ↔ ∀ i < j,
        ¬ Fails hal (r.page + 4 * i) (askedFirst hal m addr len (r.page + 4 * i)) :=
      forall₂_congr fun i hi => by rw [hask i (by omega)]
    have hnew := word j hj
    simp only [hpasses, hask j hj, h.bufData hr j hj] at hnew
    exact hnew

/-! ## The whole call -/

/-- An accepted address: what is left to do is the loop, and the label `WF` if it or the
lock fails. -/
theorem stmflashWrite_accepted (d : FlashDev) (lo : flashBase ≤ addr)
    (hi : addr < flashBase + 1024 * stm32FlashSize) :
    stmflashWrite hal d addr data len =
      let r := writeLoop hal (halFlashUnlock hal d).2 (Cursor.start addr len) data
      if r.status = .error then writeFailed hal r
      else
        let l := halFlashLock hal r.dev
        if l.1 = .error then writeFailed hal { r with dev := l.2 } else (.ok, l.2) := by
  rw [stmflashWrite, if_neg (by omega)]

/-- **Whatever happens, the call reports success.** -/
theorem stmflashWrite_status (hal : HalAnswers) (d : FlashDev) (addr : Nat) (data : Nat → Word)
    (len : Nat) (lo : flashBase ≤ addr)
    (hi : addr < flashBase + 1024 * stm32FlashSize) :
    (stmflashWrite hal d addr data len).1 = .ok := by
  rw [stmflashWrite_accepted d lo hi]
  dsimp only
  split
  · rfl
  · split <;> rfl

/-- The memory the loop leaves, and what the label `WF` makes of it. -/
theorem exists_last {inv : Nat → Mem → Prop}
    (round : ∀ {d c pBuffer t}, Head hal m addr len data inv d c pBuffer t →
      RoundEnd hal m addr len data inv (writeRound hal d c pBuffer) ∧
        (writeRound hal d c pBuffer).page = c.page)
    (hstart : inv (pageStart addr) m) (lo : flashBase ≤ addr)
    (hi : addr < flashBase + 1024 * stm32FlashSize) :
    ∃ r, RoundEnd hal m addr len data inv r ∧
      (r.status ≠ .error → r.page = lastPage addr len) ∧
      ((r.status = .error ∨ hal.lock 0 = .error) ∧ Again hal m addr len data r.page r.dev.mem
          (stmflashWrite hal (.idle m) addr data len).2.mem ∨
        (r.status ≠ .error ∧ hal.lock 0 ≠ .error) ∧
          (stmflashWrite hal (.idle m) addr data len).2.mem = r.dev.mem) := by
  obtain ⟨r, h, hr⟩ := (Head.start hal m len data lo hstart).loop round
  have hlast : r.status ≠ .error → r.page = lastPage addr len := fun hok =>
    (hr.resolve_left fun h => hok h.1).2.2
  refine ⟨r, h, hlast, ?_⟩
  rw [stmflashWrite_accepted _ lo hi]
  dsimp only
  obtain ⟨herr, hloop⟩ | ⟨hok, hloop, -⟩ := hr
  · rw [hloop, if_pos herr]
    exact .inl ⟨.inl herr, writeFailed_again h rfl rfl⟩
  · rw [hloop, if_neg hok]
    have hlock : (halFlashLock hal r.dev).1 = hal.lock 0 := congrArg hal.lock h.locks
    rw [hlock]
    by_cases hfail : hal.lock 0 = .error
    · rw [if_pos hfail]
      exact .inl ⟨.inr hfail, writeFailed_again h rfl rfl⟩
    · rw [if_neg hfail]
      exact .inr ⟨⟨hok, hfail⟩, rfl⟩

/-! ## Words -/

/-- What the call leaves in a word: `mem` is the memory after it. -/
structure Leaves (hal : HalAnswers) (m : Mem) (addr len : Nat) (data : Nat → Word) (mem : Mem)
    (a : Nat) : Prop where
  lost : Lost hal m addr len a → readWord mem a = blank
  accepted : ¬ Lost hal m addr len a → Accepts hal m addr len a →
    readWord mem a = base hal m addr len a &&& wanted hal m addr len data a
  refused : ¬ Lost hal m addr len a → ¬ Accepts hal m addr len a →
    readWord mem a = base hal m addr len a

/-- The word at `a` when the loop is left. -/
def atEnd (hal : HalAnswers) (m : Mem) (addr len : Nat) (data : Nat → Word) (a : Nat) : Word :=
  if Lost hal m addr len a then blank else afterRound hal m addr len data a

theorem Leaves.of_first {mem : Mem} (hword : readWord mem a = atEnd hal m addr len data a)
    (hfirst : Accepts hal m addr len a ↔ Reached hal m addr len a ∧ Takes hal a 0) :
    Leaves hal m addr len data mem a := by
  unfold atEnd afterRound at hword
  refine ⟨fun hlost => ?_, fun hkept hacc => ?_, fun hkept hacc => ?_⟩
  · rw [hword, if_pos hlost]
  · rw [hword, if_neg hkept, if_pos (hfirst.mp hacc)]
  · rw [hword, if_neg hkept, if_neg (mt hfirst.mpr hacc)]

/-- The second programming of a page that was rewritten. -/
theorem Leaves.of_second {mem : Mem} (hkept : ¬ Lost hal m addr len a) {again : Prop}
    [Decidable again]
    (hword : readWord mem a = if again
      then atEnd hal m addr len data a &&& wanted hal m addr len data a
      else atEnd hal m addr len data a)
    (hsecond : Accepts hal m addr len a ↔ (Reached hal m addr len a ∧ Takes hal a 0) ∨ again) :
    Leaves hal m addr len data mem a := by
  unfold atEnd afterRound at hword
  rw [if_neg hkept] at hword
  refine ⟨fun hlost => absurd hlost hkept, fun _ hacc => ?_, fun _ hacc => ?_⟩
  · rw [hword]
    by_cases hfirst : Reached hal m addr len a ∧ Takes hal a 0
    · rw [if_pos hfirst, BitVec.and_assoc, BitVec.and_self, ite_self]
    · rw [if_pos ((hsecond.mp hacc).resolve_left hfirst), if_neg hfirst]
  · obtain ⟨hfirst, hagain⟩ := not_or.mp (mt hsecond.mpr hacc)
    rw [hword, if_neg hagain, if_neg hfirst]

/-- The memory the loop leaves at an aligned address. -/
theorem contents_atEnd {r : Round} (ha : addr % 4 = 0)
    (h : RoundEnd hal m addr len data (Contents hal m addr len data) r)
    (hlast : r.status ≠ .error → r.page = lastPage addr len) (h4 : a % 4 = 0)
    (hbase : flashBase ≤ a) : readWord r.dev.mem a = atEnd hal m addr len data a := by
  have hlater : ∀ {q}, Erases hal m addr len q → q ≤ r.page ∧ q ≤ lastPage addr len :=
    fun hq => ⟨h.erases_le hlast hq, hq.1.1.2.2⟩
  have hsize : 0 < stmSectorSize := by decide
  unfold atEnd
  obtain hlow | hge := Nat.lt_or_ge a (r.page + stmSectorSize)
  · rw [h.mem.behind a h4 hbase hlow]
    refine ite_congr (propext (and_congr_right fun _ => ?_)) (fun _ => rfl) fun _ => rfl
    constructor
    · rintro ⟨q, hq, hlt, herases⟩
      exact ⟨q, (hlater herases).2, hlt, herases⟩
    · rintro ⟨q, hq, hlt, herases⟩
      have := (hlater herases).1
      exact ⟨q, by omega, hlt, herases⟩
  · have hstart := pageStart_bounds hbase
    have hbehind : r.page < pageStart a := by omega
    have hbefore : readWord r.dev.mem a = base hal m addr len a := by
      rw [h.mem.ahead a h4 hge, base]
      refine ite_congr (propext (and_congr_right fun _ => ?_)) (fun _ => rfl) fun _ => rfl
      constructor
      · rintro ⟨q, hq, herases⟩
        have := (hlater herases).1
        exact ⟨q, by omega, herases⟩
      · rintro ⟨q, hq, herases⟩
        have := (hlater herases).1
        exact ⟨q, by omega, herases⟩
    rw [if_neg, hbefore, afterRound]
    · by_cases herr : r.status = .error
      · rw [if_neg fun h' => h.status.mp herr (h'.1.mono hge)]
      · have hpage := hlast herr
        have hout : ¬ (addr ≤ a ∧ a < addr + 4 * len) := fun hin => by
          have := pageStart_bounds (a := addr + 4 * (len - 1)) (by omega)
          unfold lastPage at hpage
          omega
        have hfound : found hal m addr len a = base hal m addr len a := by
          unfold found base
          refine ite_congr (propext (and_congr_right fun _ => ?_)) (fun _ => rfl) fun _ => rfl
          constructor
          · rintro ⟨q, hq, herases⟩
            exact ⟨q, by omega, herases⟩
          · rintro ⟨q, hq, herases⟩
            have := (hlater herases).1
            exact ⟨q, by omega, herases⟩
        unfold wanted
        rw [if_neg hout, hfound, BitVec.and_self, ite_self]
    · rintro ⟨-, q, hq, hlt, herases⟩
      have := (hlater herases).1
      omega

/-- **What a call at an aligned address leaves in a word.** -/
theorem leaves_of_aligned (hal : HalAnswers) (m : Mem) (data : Nat → Word) (len : Nat)
    (ha : addr % 4 = 0) (lo : flashBase ≤ addr) (hi : addr < flashBase + 1024 * stm32FlashSize)
    (h4 : a % 4 = 0) (hbase : flashBase ≤ a) :
    Leaves hal m addr len data (stmflashWrite hal (.idle m) addr data len).2.mem a := by
  obtain ⟨r, h, hlast, hend⟩ :=
    exists_last (round_contents hal m len data ha lo) (Contents.start lo) lo hi
  have hword := contents_atEnd ha h hlast h4 hbase
  have hrep := h.repeated_iff hlast lo (isPage_pageStart a)
  obtain ⟨hwhy, hagain⟩ | ⟨⟨hok, hlock⟩, hmem⟩ := hend
  · by_cases hmine : pageStart a = r.page ∧ Rewrites m addr len r.page
    · obtain ⟨hpage, hrewrites⟩ := hmine
      have hstart := pageStart_bounds hbase
      rw [hpage] at hstart
      obtain ⟨j, hj, rfl⟩ := (onPage_iff h.page).mpr ⟨h4, hstart⟩
      have hkept : ¬ Lost hal m addr len (r.page + 4 * j) := by
        rintro ⟨-, q, hq, hlt, herases⟩
        have := h.erases_le hlast herases
        omega
      have hnew := hagain.word hrewrites j hj
      rw [hword] at hnew
      refine Leaves.of_second hkept hnew (or_congr_right ?_)
      rw [hpage]
      constructor
      · rintro ⟨-, -, hpass, htakes⟩
        exact ⟨fun i hi => hpass _ (by omega) ⟨i, by omega, rfl⟩, htakes⟩
      · rintro ⟨hpass, htakes⟩
        refine ⟨hrewrites, hpage ▸ hrep.mpr ⟨hpage, hwhy⟩, ?_, htakes⟩
        rintro b hb ⟨i, hi, rfl⟩
        exact hpass i (by omega)
    · refine Leaves.of_first (hword ▸ ?_) (or_iff_left ?_)
      · by_cases hrewrites : Rewrites m addr len r.page
        · have hne : pageStart a ≠ r.page := fun hpage => hmine ⟨hpage, hrewrites⟩
          have hstart := pageStart_bounds hbase
          refine wordOf_congr fun i hi => hagain.outside _ ?_
          have h4' := h.page.aligned
          have hsize : stmSectorSize % 4 = 0 := rfl
          by_contra hin
          exact hne (pageStart_eq h.page (by omega) (by omega))
        · rw [hagain.blank hrewrites]
      · rintro ⟨hrewrites, hrepeated, -⟩
        have hpage := (hrep.mp hrepeated).1
        exact hmine ⟨hpage, hpage ▸ hrewrites⟩
  · refine Leaves.of_first (hmem ▸ hword) (or_iff_left ?_)
    rintro ⟨-, hrepeated, -⟩
    exact (hrep.mp hrepeated).2.elim hok hlock

/-- What a call leaves in a word of the range where every page is blank. -/
theorem leaves_of_straight (hal : HalAnswers) {m : Mem} {data : Nat → Word} {len : Nat}
    (hstraight : Straight m addr len data) (lo : flashBase ≤ addr)
    (hi : addr < flashBase + 1024 * stm32FlashSize) {i : Nat} (hlen : i < len) :
    Leaves hal m addr len data (stmflashWrite hal (.idle m) addr data len).2.mem
      (addr + 4 * i) := by
  obtain ⟨r, h, hlast, hend⟩ :=
    exists_last (round_inPlace hal hstraight lo) (InPlace.start lo) lo hi
  have hmem : (stmflashWrite hal (.idle m) addr data len).2.mem = r.dev.mem := by
    obtain ⟨-, hagain⟩ | ⟨-, hmem⟩ := hend
    · exact hagain.blank hstraight.not_rewrites
    · exact hmem
  refine Leaves.of_first ?_ (or_iff_left fun h' => hstraight.not_rewrites h'.1)
  have hkept : ¬ Lost hal m addr len (addr + 4 * i) := fun ⟨_, _, _, _, herases⟩ =>
    hstraight.not_erases herases
  have hbefore : base hal m addr len (addr + 4 * i) = readWord m (addr + 4 * i) := by
    unfold base
    rw [if_neg fun ⟨_, _, _, herases⟩ => hstraight.not_erases herases]
  rw [hmem, h.mem.word i hlen, atEnd, if_neg hkept, afterRound, hbefore, wanted_range data hlen]
  refine ite_congr (propext (and_iff_right_of_imp fun hfirst => ?_)) (fun _ => rfl) fun _ => rfl
  by_cases herr : r.status = .error
  · exact Nat.lt_of_not_le fun hge => h.status.mp herr (hfirst.1.mono hge)
  · rw [hlast herr]
    exact planned_lt (m := m) lo (.inl ⟨i, hlen, rfl⟩)

end Whole

/-! ## Reporting success -/

/-- Success is reported only if every word of the range holds the data. -/
def Truthful (hal : HalAnswers) (m : Mem) (addr : Nat) (data : Nat → Word) (len : Nat) : Prop :=
  let r := stmflashWrite hal (.idle m) addr data len
  r.1 = .ok → ∀ i < len, readWord r.2.mem (addr + 4 * i) = data i

/-- Where each round puts its words where they belong: at an aligned address, or if every page
is blank to its round. -/
def InOrder (m : Mem) (addr len : Nat) (data : Nat → Word) : Prop :=
  addr % 4 = 0 ∨ Straight m addr len data

/-- Word `i` is in the flash in the end: a later erase leaves it blank, and it is to be; or none
does, and the word was there before its round, or the HAL accepts it and no bit has to be set. -/
def Saved (hal : HalAnswers) (m : Mem) (addr len : Nat) (data : Nat → Word) (i : Nat) : Prop :=
  let a := addr + 4 * i
  (Lost hal m addr len a → data i = blank) ∧
    (¬ Lost hal m addr len a → base hal m addr len a = data i ∨
      Accepts hal m addr len a ∧ base hal m addr len a &&& data i = data i)

section
variable {hal : HalAnswers} {m : Mem} {addr len : Nat} {data : Nat → Word} {i : Nat}

theorem saved_iff (horder : InOrder m addr len data) (lo : flashBase ≤ addr)
    (hi : addr < flashBase + 1024 * stm32FlashSize) (hlen : i < len) :
    readWord (stmflashWrite hal (.idle m) addr data len).2.mem (addr + 4 * i) = data i ↔
      Saved hal m addr len data i := by
  have hleaves : Leaves hal m addr len data (stmflashWrite hal (.idle m) addr data len).2.mem
      (addr + 4 * i) := by
    obtain ha | hstraight := horder
    · exact leaves_of_aligned hal m data len ha lo hi (by omega) (by omega)
    · exact leaves_of_straight hal hstraight lo hi hlen
  unfold Saved
  by_cases hlost : Lost hal m addr len (addr + 4 * i)
  · rw [hleaves.lost hlost]
    exact ⟨fun h => ⟨fun _ => h.symm, fun h' => absurd hlost h'⟩, fun h => (h.1 hlost).symm⟩
  · by_cases hacc : Accepts hal m addr len (addr + 4 * i)
    · rw [hleaves.accepted hlost hacc, wanted_range data hlen]
      constructor
      · exact fun h => ⟨fun h' => absurd h' hlost, fun _ => .inr ⟨hacc, h⟩⟩
      · intro h
        obtain heq | ⟨-, hset⟩ := h.2 hlost
        · rw [heq, BitVec.and_self]
        · exact hset
    · rw [hleaves.refused hlost hacc]
      exact ⟨fun h => ⟨fun h' => absurd h' hlost, fun _ => .inl h⟩,
        fun h => (h.2 hlost).resolve_right fun h' => hacc h'.1⟩

end

/-- **When the report is truthful**: it is enough that the words are put where they belong and
each of them is in the flash in the end; where they are put where they belong nothing less
will do. -/
theorem stmflashWrite_truthful_iff (hal : HalAnswers) (m : Mem) (addr : Nat) (data : Nat → Word)
    (len : Nat) (lo : flashBase ≤ addr) (hi : addr < flashBase + 1024 * stm32FlashSize)
    (_ : addr + 4 * len ≤ 2 ^ 32) :
    ((InOrder m addr len data ∧ ∀ i < len, Saved hal m addr len data i) →
      Truthful hal m addr data len) ∧
    (InOrder m addr len data → Truthful hal m addr data len →
      ∀ i < len, Saved hal m addr len data i) := by
  refine ⟨fun ⟨horder, hsaved⟩ _ i hlen => (saved_iff horder lo hi hlen).mpr (hsaved i hlen), ?_⟩
  intro horder h i hlen
  exact (saved_iff horder lo hi hlen).mp
    (h (stmflashWrite_status hal (.idle m) addr data len lo hi) i hlen)

theorem dirty_erased (p : Nat) : ¬ Dirty erased p := fun h => by
  obtain ⟨j, -, hne⟩ := dirty_iff.mp h
  exact hne (readWord_erased _)

/-- Flash of zeros: the page is rewritten, and every word of sector 0 is blank before it. -/
theorem base_zeros : base allOk (fun _ => 0#8) flashBase 1 flashBase = blank := by
  have hdirty : Dirty (fun _ => 0#8) flashBase :=
    dirty_iff.mpr ⟨0, by decide, (by decide : (0#32 : Word) ≠ blank)⟩
  have hrewrites : Rewrites (fun _ => 0#8) flashBase 1 flashBase :=
    ⟨⟨by decide, by decide, by decide⟩, hdirty, fun _ q hq htouched => by
      have := htouched.1.le
      omega⟩
  unfold base
  exact if_pos ⟨by decide, flashBase, by decide, erases_allOk_iff.mpr hrewrites⟩

/-- A word written to a page of zeros in sector 0, and one written to erased flash at an address
that is not aligned. -/
theorem stmflashWrite_truthful_iff_first :
    Truthful allOk (fun _ => 0#8) flashBase (fun _ => 0x05#32) 1 ∧
      Truthful allOk erased (flashDataAddress + 2) (fun _ => 0x05#32) 1 := by
  refine ⟨(stmflashWrite_truthful_iff allOk _ flashBase _ 1 (by decide) (by decide)
      (by decide)).1
      ⟨.inl (by decide), fun i hi => ?_⟩,
    (stmflashWrite_truthful_iff allOk erased (flashDataAddress + 2) _ 1 (by decide)
      (by decide) (by decide)).1
        ⟨.inr ⟨fun p _ => dirty_erased p, fun i hi => absurd hi (by omega)⟩, fun i hi => ?_⟩⟩
  · obtain rfl : i = 0 := by omega
    refine ⟨fun ⟨_, q, hq, hlt, _⟩ => absurd (hlt.trans_le hq) (by decide), fun _ => .inr ?_⟩
    exact ⟨accepts_allOk _, by rw [Nat.mul_zero, Nat.add_zero, base_zeros, blank_and]⟩
  · obtain rfl : i = 0 := by omega
    have hbase : base allOk erased (flashDataAddress + 2) 1 (flashDataAddress + 2 + 4 * 0) =
        blank := by
      unfold base
      split
      · rfl
      · exact readWord_erased _
    refine ⟨fun ⟨_, q, _, _, herases⟩ => absurd herases.1.2.1 (dirty_erased q),
      fun _ => .inr ⟨accepts_allOk _, by rw [hbase, blank_and]⟩⟩

/-- Every request to program a word is answered `HAL_ERROR` and programs nothing. -/
def refusing : HalAnswers := ⟨fun _ _ => .error, fun _ _ => false, fun _ => .ok, fun _ => .ok⟩

theorem not_takes_refusing (a k : Nat) : ¬ Takes refusing a k := by
  rintro ⟨j, -, h⟩
  exact nomatch h

theorem not_accepts_refusing (m : Mem) (addr len a : Nat) : ¬ Accepts refusing m addr len a := by
  intro h
  cases h with
  | inl h => exact not_takes_refusing _ _ h.2
  | inr h => exact not_takes_refusing _ _ h.2.2.2

/-- Nothing is programmed, and success is reported. -/
theorem stmflashWrite_reports_success_refused :
    ¬ ∀ (hal : HalAnswers) (m : Mem) (addr : Nat) (data : Nat → Word) (len : Nat),
      flashBase ≤ addr → addr < flashBase + 1024 * stm32FlashSize →
        Truthful hal m addr data len := by
  intro h
  have hok := stmflashWrite_status refusing (.idle erased) flashDataAddress (fun _ => 0#32) 1
    (by decide) (by decide)
  have haligned : flashDataAddress % 4 = 0 := by decide
  have hkept := (leaves_of_aligned refusing erased (fun _ => 0#32) 1 (a := flashDataAddress)
    haligned (by decide) (by decide) (by decide) (by decide)).refused
    (fun hlost => absurd hlost.1 (by decide)) (not_accepts_refusing _ _ _ _)
  have hbase : base refusing erased flashDataAddress 1 flashDataAddress = blank := by
    unfold base
    rw [if_neg fun h' => absurd h'.1 (by decide), readWord_erased]
  have hheld := h refusing erased flashDataAddress (fun _ => 0#32) 1 (by decide) (by decide) hok 0
    (by decide)
  rw [Nat.mul_zero, Nat.add_zero, hkept, hbase] at hheld
  exact absurd hheld (by decide)

/-! ## Leaving the rest of the flash alone -/

/-- When every call succeeds: the range holds the data, and every other word is unchanged. -/
def Framed (m : Mem) (addr : Nat) (data : Nat → Word) (len : Nat) : Prop :=
  let new := (stmflashWrite allOk (.idle m) addr data len).2.mem
  (∀ i < len, readWord new (addr + 4 * i) = data i) ∧
    ∀ a, a % 4 = 0 → flashBase ≤ a → (∀ i < len, a ≠ addr + 4 * i) → readWord new a = readWord m a

/-- Word `i` of the data can be written: outside sector 0 no bit has to be set, and in it no
later round erases the sector again, but for a blank word. -/
def Writable (m : Mem) (addr len : Nat) (data : Nat → Word) (i : Nat) : Prop :=
  let a := addr + 4 * i
  (¬ InSector0 a → readWord m a &&& data i = data i) ∧
    (InSector0 a → (∃ q, pageStart a < q ∧ Rewrites m addr len q) → data i = blank)

/-- The word at `a`, which is not written, is spared: it is blank if it lies in sector 0 and the
round of another page erases that. -/
def Spared (m : Mem) (addr len : Nat) (a : Nat) : Prop :=
  InSector0 a → (∃ q, q ≠ pageStart a ∧ Rewrites m addr len q) → readWord m a = blank

section
variable {m : Mem} {addr len : Nat} {data : Nat → Word} {a i : Nat}

theorem lost_allOk_iff :
    Lost allOk m addr len a ↔ InSector0 a ∧ ∃ q, pageStart a < q ∧ Rewrites m addr len q := by
  refine and_congr_right fun _ => ⟨?_, ?_⟩
  · rintro ⟨q, -, hlt, herases⟩
    exact ⟨q, hlt, herases.1⟩
  · rintro ⟨q, hlt, hrewrites⟩
    exact ⟨q, hrewrites.1.2.2, hlt, erases_allOk_iff.mpr hrewrites⟩

/-- A word of sector 0 is blank when its round programs it. -/
theorem base_sector (hs : InSector0 a) (hpage : Touched addr len (pageStart a)) (h4 : a % 4 = 0) :
    base allOk m addr len a = blank := by
  have hstart := pageStart_bounds (inSector0_iff.mp hs).1
  unfold base
  split
  · rfl
  · next hnone =>
    refine Classical.not_not.mp fun hne => ?_
    obtain ⟨j, hj, hja⟩ := (onPage_iff (isPage_pageStart a)).mpr ⟨h4, hstart⟩
    obtain ⟨q, hq, hrewrites⟩ := exists_rewrites hpage (dirty_iff.mpr ⟨j, hj, hja ▸ hne⟩)
    exact hnone ⟨hs, q, hq, erases_allOk_iff.mpr hrewrites⟩

theorem touched_range (lo : flashBase ≤ addr) (hlen : i < len) :
    Touched addr len (pageStart (addr + 4 * i)) :=
  ⟨isPage_pageStart _, pageStart_mono lo (by omega), pageStart_mono (by omega) (by omega)⟩

theorem stmflashWrite_range_iff (ha : addr % 4 = 0) (lo : flashBase ≤ addr)
    (hi : addr < flashBase + 1024 * stm32FlashSize) (hlen : i < len) :
    readWord (stmflashWrite allOk (.idle m) addr data len).2.mem (addr + 4 * i) = data i ↔
      Writable m addr len data i := by
  have hleaves := leaves_of_aligned allOk m data len (a := addr + 4 * i) ha lo hi (by omega)
    (by omega)
  unfold Writable
  by_cases hlost : Lost allOk m addr len (addr + 4 * i)
  · obtain ⟨hs, hlater⟩ := lost_allOk_iff.mp hlost
    rw [hleaves.lost hlost]
    exact ⟨fun h => ⟨fun h' => absurd hs h', fun _ _ => h.symm⟩, fun h => (h.2 hs hlater).symm⟩
  · rw [hleaves.accepted hlost (accepts_allOk _), wanted_range data hlen]
    by_cases hs : InSector0 (addr + 4 * i)
    · rw [base_sector hs (touched_range lo hlen) (by omega), blank_and]
      exact iff_of_true rfl ⟨fun h' => absurd hs h', fun _ hlater =>
        absurd (lost_allOk_iff.mpr ⟨hs, hlater⟩) hlost⟩
    · unfold base
      rw [if_neg fun h' => hs h'.1]
      exact ⟨fun h => ⟨fun _ => h, fun h' => absurd h' hs⟩, fun h => h.1 hs⟩

theorem stmflashWrite_rest_iff (ha : addr % 4 = 0) (lo : flashBase ≤ addr)
    (hi : addr < flashBase + 1024 * stm32FlashSize) (h4 : a % 4 = 0) (hbase : flashBase ≤ a)
    (hout : ∀ i < len, a ≠ addr + 4 * i) :
    readWord (stmflashWrite allOk (.idle m) addr data len).2.mem a = readWord m a ↔
      Spared m addr len a := by
  have hleaves := leaves_of_aligned allOk m data len (a := a) ha lo hi h4 hbase
  have hwanted : wanted allOk m addr len data a = found allOk m addr len a := by
    unfold wanted
    rw [if_neg fun hin => hout ((a - addr) / 4) (by omega) (by omega)]
  unfold Spared
  by_cases hlost : Lost allOk m addr len a
  · obtain ⟨hs, q, hlt, hrewrites⟩ := lost_allOk_iff.mp hlost
    rw [hleaves.lost hlost]
    exact ⟨fun h _ _ => h.symm, fun h => (h hs ⟨q, by omega, hrewrites⟩).symm⟩
  · rw [hleaves.accepted hlost (accepts_allOk _), hwanted]
    by_cases hearlier : InSector0 a ∧ ∃ q < pageStart a, Erases allOk m addr len q
    · -- an earlier round has erased the word
      obtain ⟨hs, q, hlt, herases⟩ := hearlier
      have hblank : base allOk m addr len a = blank := by
        unfold base
        rw [if_pos ⟨hs, q, Nat.le_of_lt hlt, herases⟩]
      have hfound : found allOk m addr len a = blank := by
        unfold found
        rw [if_pos ⟨hs, q, hlt, herases⟩]
      rw [hblank, hfound, blank_and]
      exact ⟨fun h _ _ => h.symm, fun h => (h hs ⟨q, by omega, herases.1⟩).symm⟩
    · -- what the round found is programmed again, if the round erases the word
      have hfound : found allOk m addr len a = readWord m a := if_neg hearlier
      have hkept : base allOk m addr len a &&& readWord m a = readWord m a := by
        unfold base
        split
        · exact blank_and _
        · exact BitVec.and_self
      rw [hfound, hkept]
      refine iff_of_true rfl fun hs ⟨q, hne, hrewrites⟩ => ?_
      rcases Nat.lt_or_gt_of_ne hne with hlt | hgt
      · exact absurd ⟨hs, q, hlt, erases_allOk_iff.mpr hrewrites⟩ hearlier
      · exact absurd (lost_allOk_iff.mpr ⟨hs, q, hgt, hrewrites⟩) hlost

end

/-- **When a call does what it is for**: every word of the data can be written, and every other
word is spared. -/
theorem stmflashWrite_framed_iff (m : Mem) (addr : Nat) (data : Nat → Word) (len : Nat)
    (ha : addr % 4 = 0) (lo : flashBase ≤ addr) (hi : addr < flashBase + 1024 * stm32FlashSize)
    (_ : addr + 4 * len ≤ flashBase + 1024 * stm32FlashSize) :
    Framed m addr data len ↔ (∀ i < len, Writable m addr len data i) ∧
      ∀ a, a % 4 = 0 → flashBase ≤ a → (∀ i < len, a ≠ addr + 4 * i) → Spared m addr len a := by
  refine and_congr (forall₂_congr fun i hlen => stmflashWrite_range_iff ha lo hi hlen) ?_
  exact forall₄_congr fun a h4 hbase hout => stmflashWrite_rest_iff ha lo hi h4 hbase hout

/-- Flash with zeros in its first software page only. -/
def firstPageZero : Mem := fun x => if x < flashBase + stmSectorSize then 0#8 else 0xFF#8

/-- A word written to the page that is not blank: the page is erased, merged and programmed. -/
theorem stmflashWrite_framed_iff_first : Framed firstPageZero flashBase (fun _ => 0x05#32) 1 := by
  have honly : ∀ {q}, Rewrites firstPageZero flashBase 1 q → q = flashBase := fun h =>
    Nat.le_antisymm h.1.2.2 h.1.1.le
  refine (stmflashWrite_framed_iff firstPageZero flashBase _ 1 (by decide) (by decide)
    (by decide) (by decide)).mpr ⟨fun i hi => ⟨fun hs => ?_, fun _ ⟨q, hlt, hrewrites⟩ => ?_⟩,
      fun a h4 hbase hout hs ⟨q, hne, hrewrites⟩ => ?_⟩
  · obtain rfl : i = 0 := by omega
    exact absurd hs (by decide)
  · obtain rfl : i = 0 := by omega
    rw [honly hrewrites] at hlt
    exact absurd hlt (by decide)
  · rw [honly hrewrites] at hne
    have hge : flashBase + stmSectorSize ≤ a := Nat.le_of_not_lt fun hlt =>
      hne (pageStart_eq (p := flashBase) (by decide) hbase hlt).symm
    rw [← readWord_erased a]
    exact wordOf_congr fun i _ => if_neg (by omega)

/-- Flash of zeros, a word of which is to become 1: sector 0 is erased instead of the sector of
the word, which stays 0. -/
theorem stmflashWrite_cannot_set_bits :
    ¬ ∀ (m : Mem) (addr : Nat) (data : Nat → Word) (len : Nat),
      addr % 4 = 0 → flashBase ≤ addr → addr < flashBase + 1024 * stm32FlashSize →
        addr + 4 * len ≤ flashBase + 1024 * stm32FlashSize → Framed m addr data len := by
  intro h
  have hheld := (h (fun _ => 0#8) flashDataAddress (fun _ => 0x01#32) 1 (by decide) (by decide)
    (by decide) (by decide)).1 0 (by decide)
  have hwritable := (stmflashWrite_range_iff (by decide) (by decide) (by decide) (by decide)).mp
    hheld
  exact absurd (hwritable.1 (by decide)) (by decide)

end ControlRTT.Applications.FlashWrite

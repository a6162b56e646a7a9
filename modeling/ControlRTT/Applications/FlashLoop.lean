import ControlRTT.Applications.FlashPlan

/-! # The loop of `STMFLASH_Write`

`At` ties the loop variables to the words already done, `Head` adds what the device has been
asked, and `RoundEnd` is what one round makes of it. What the memory holds is a parameter of
them (`inv`): a round that keeps it gives it for the whole loop (`Head.loop`). -/
namespace ControlRTT.Applications.FlashLoop
open ControlRTT.Lib.CInt ControlRTT.Lib.NorFlash ControlRTT.Applications.Flash
open ControlRTT.Applications.FlashAnswers ControlRTT.Applications.FlashPlan

/-! ## The loop variables -/

/-- The loop variables with `t` words done. A round puts its words `addr % 4` bytes above the
words of the page. -/
structure At (addr len : Nat) (data : Nat → Word) (c : Cursor) (pBuffer : Nat → Word)
    (t : Nat) : Prop where
  reached : c.writeAddr = addr + 4 * t
  left : t + c.numToWrite = len
  buffer : ∀ i, pBuffer i = data (t + i)
  inPage : c.page + 4 * c.secoff + addr % 4 = c.writeAddr
  fits : c.secoff + c.secremain ≤ pageWords
  room : c.secoff < pageWords
  more : len = 0 ∨ 0 < c.secremain
  starts : t = 0 ∨ c.secoff = 0
  ends : c.secremain = c.numToWrite ∨ c.secoff + c.secremain = pageWords

section Loop
variable {m : Mem} {addr len : Nat} {data : Nat → Word} {hal : HalAnswers} {d : FlashDev}
  {c : Cursor} {pBuffer : Nat → Word} {t : Nat} {inv : Nat → Mem → Prop}

theorem At.start (lo : flashBase ≤ addr) :
    At addr len data (Cursor.start addr len) data 0 where
  reached := rfl
  left := Nat.zero_add _
  buffer i := by rw [Nat.zero_add]
  inPage := by
    have hb : flashBase % 4 = 0 := rfl
    simp only [Cursor.start, Cursor.page, stmSectorSize, flashAline] at *
    omega
  fits := by
    simp only [Cursor.start, pageWords, stmSectorSize, flashAline]
    omega
  room := by
    have hlt : (addr - flashBase) % 2048 < 2048 := Nat.mod_lt _ (by decide)
    simp only [Cursor.start, pageWords, stmSectorSize, flashAline]
    omega
  more := by
    have hlt : (addr - flashBase) % 2048 < 2048 := Nat.mod_lt _ (by decide)
    simp only [Cursor.start, pageWords, stmSectorSize, flashAline]
    omega
  starts := .inl rfl
  ends := by
    simp only [Cursor.start, pageWords, stmSectorSize, flashAline]
    omega

theorem At.next (h : At addr len data c pBuffer t) (hmore : c.numToWrite ≠ c.secremain) :
    At addr len data c.next (fun i => pBuffer (i + c.secremain)) (t + c.secremain) := by
  obtain ⟨reached, left, buffer, inPage, fits, room, more, starts, ends⟩ := h
  have hle := c.remain_le
  have hfull : c.secoff + c.secremain = pageWords := ends.resolve_left (Ne.symm hmore)
  have hw : pageWords = 512 := rfl
  constructor
  case reached => rw [Cursor.next_writeAddr, flashAline]; omega
  case left => rw [Cursor.next_numToWrite]; omega
  case buffer => exact fun i => (buffer _).trans (congrArg data (by omega))
  case inPage =>
    rw [Cursor.next_page, Cursor.next_secoff, Cursor.next_writeAddr, stmSectorSize, flashAline]
    omega
  case fits => rw [Cursor.next_secoff, Cursor.next_secremain]; omega
  case room => rw [Cursor.next_secoff]; omega
  case more => rw [Cursor.next_secremain]; omega
  case starts => exact .inr rfl
  case ends => rw [Cursor.next_secoff, Cursor.next_secremain, Cursor.next_numToWrite]; omega

theorem isPage_page (c : Cursor) : IsPage c.page := isPage_iff.mpr ⟨_, rfl⟩

/-- The words of the range that begin on the round's page are those the round writes. -/
theorem At.onPage (h : At addr len data c pBuffer t) {i : Nat} (hi : i < len) :
    c.page ≤ addr + 4 * i ∧ addr + 4 * i < c.page + stmSectorSize ↔
      t ≤ i ∧ i < t + c.secremain := by
  obtain ⟨reached, left, buffer, inPage, fits, room, more, starts, ends⟩ := h
  simp only [pageWords, stmSectorSize, flashAline] at *
  omega

theorem At.pageStart_writeAddr (h : At addr len data c pBuffer t) :
    pageStart (addr + 4 * t) = c.page := by
  obtain ⟨reached, left, buffer, inPage, fits, room, more, starts, ends⟩ := h
  refine pageStart_eq (isPage_page c) ?_ ?_ <;>
    simp only [pageWords, stmSectorSize, flashAline] at * <;> omega

theorem At.touched (h : At addr len data c pBuffer t) (lo : flashBase ≤ addr) :
    Touched addr len c.page := by
  have hleft := h.left
  have hle := c.remain_le
  have hmore := h.more
  refine ⟨isPage_page c, ?_, ?_⟩
  · rw [← h.pageStart_writeAddr]
    exact pageStart_mono lo (by omega)
  · rw [← h.pageStart_writeAddr]
    exact pageStart_mono (by omega) (by omega)

theorem At.lastPage (h : At addr len data c pBuffer t) (hlast : c.numToWrite = c.secremain) :
    c.page = lastPage addr len := by
  have hleft := h.left
  obtain rfl | hlen := Nat.eq_zero_or_pos len
  · obtain rfl : t = 0 := by omega
    exact h.pageStart_writeAddr.symm
  · obtain ⟨hlo, hhi⟩ := (h.onPage (i := len - 1) (by omega)).mpr ⟨by
      have := h.more
      omega, by omega⟩
    exact (pageStart_eq (isPage_page c) hlo hhi).symm

/-- What the round programs: the whole page, or on a page that is blank to it the words of the
range. -/
theorem At.planned (h : At addr len data c pBuffer t)
    (ha : Rewrites m addr len c.page → addr % 4 = 0) {b : Nat} :
    Planned m addr len b ∧ c.page ≤ b ∧ b < c.page + stmSectorSize ↔
      if Rewrites m addr len c.page then OnPage c.page b
      else ∃ j < c.secremain, b = c.writeAddr + 4 * j := by
  have hpage := isPage_page c
  have hreached := h.reached
  have hleft := h.left
  have hle := c.remain_le
  split
  · next hrewrites =>
    have h4 := ha hrewrites
    constructor
    · rintro ⟨⟨i, hi, rfl⟩ | ⟨-, hon⟩, lo, hi'⟩
      · exact (onPage_iff hpage).mpr ⟨by omega, lo, hi'⟩
      · rwa [pageStart_eq hpage lo hi'] at hon
    · intro hon
      obtain ⟨-, lo, hi'⟩ := (onPage_iff hpage).mp hon
      refine ⟨.inr ?_, lo, hi'⟩
      rw [pageStart_eq hpage lo hi']
      exact ⟨hrewrites, hon⟩
  · next hblank =>
    constructor
    · rintro ⟨⟨i, hi, rfl⟩ | ⟨hrewrites, -⟩, lo, hi'⟩
      · have := (h.onPage hi).mp ⟨lo, hi'⟩
        exact ⟨i - t, by omega, by omega⟩
      · rw [pageStart_eq hpage lo hi'] at hrewrites
        exact absurd hrewrites hblank
    · rintro ⟨j, hj, rfl⟩
      have hb := (h.onPage (i := t + j) (by omega)).mpr ⟨by omega, by omega⟩
      rw [show addr + 4 * (t + j) = c.writeAddr + 4 * j by omega] at hb
      exact ⟨.inl ⟨t + j, by omega, by omega⟩, hb⟩

/-! ## Rounds -/

/-- What holds when a round starts: every page before its own is done. -/
structure Head (hal : HalAnswers) (m : Mem) (addr len : Nat) (data : Nat → Word)
    (inv : Nat → Mem → Prop) (d : FlashDev) (c : Cursor) (pBuffer : Nat → Word)
    (t : Nat) : Prop where
  pos : At addr len data c pBuffer t
  mem : inv c.page d.mem
  passed : Reached hal m addr len c.page
  unasked : ∀ b, c.page ≤ b → d.asked b = 0
  locks : d.locks = 0

/-- What holds when a round ends: its page is done too, or a word of it was given up. -/
structure RoundEnd (hal : HalAnswers) (m : Mem) (addr len : Nat) (data : Nat → Word)
    (inv : Nat → Mem → Prop) (r : Round) : Prop where
  page : IsPage r.page
  mem : inv (r.page + stmSectorSize) r.dev.mem
  passed : Reached hal m addr len r.page
  status : r.status = .error ↔ ¬ Reached hal m addr len (r.page + stmSectorSize)
  asked : ∀ b, Planned m addr len b → r.page ≤ b → b < r.page + stmSectorSize →
    r.dev.asked b = askedFirst hal m addr len b
  unasked : ∀ b, r.page + stmSectorSize ≤ b → r.dev.asked b = 0
  locks : r.dev.locks = 0
  bufData : Rewrites m addr len r.page → ∀ j < pageWords,
    r.buf j = wanted hal m addr len data (r.page + 4 * j)
  bufBlank : ¬ Rewrites m addr len r.page → ∀ j < pageWords, r.buf j = blank

/-- What a series over the words a round has to program does to the device. -/
structure Programs (hal : HalAnswers) (m : Mem) (addr len : Nat) (page a : Nat) (p : Nat → Word)
    (n : Nat) (mem : Mem) (r : HalStatus × FlashDev) : Prop where
  status : r.1 = .error ↔ ¬ Reached hal m addr len (page + stmSectorSize)
  asked : ∀ b, Planned m addr len b → page ≤ b → b < page + stmSectorSize →
    r.2.asked b = askedFirst hal m addr len b
  unasked : ∀ b, page + stmSectorSize ≤ b → r.2.asked b = 0
  word : ∀ j < n, readWord r.2.mem (a + 4 * j) =
    if Reached hal m addr len (a + 4 * j) ∧ Takes hal (a + 4 * j) 0
    then readWord mem (a + 4 * j) &&& p j else readWord mem (a + 4 * j)
  outside : ∀ x, x < a ∨ a + 4 * n ≤ x → r.2.mem x = mem x
  locks : r.2.locks = 0

/-- The series gets to a word exactly if the loop gives up none below it. -/
theorem Head.series (h : Head hal m addr len data inv d c pBuffer t) {a n : Nat}
    (p : Nat → Word) (mem : Mem)
    (listed : ∀ b, Planned m addr len b ∧ c.page ≤ b ∧ b < c.page + stmSectorSize ↔
      ∃ j < n, b = a + 4 * j) :
    Programs hal m addr len c.page a p n mem
      (stmflashWriteNoCheck hal { d with mem := mem } a p n) := by
  obtain ⟨status, asked, elsewhere, word, outside, locks⟩ :=
    noCheck_series hal { d with mem := mem } a p n
  have hon : ∀ j < n, Planned m addr len (a + 4 * j) ∧ c.page ≤ a + 4 * j ∧
      a + 4 * j < c.page + stmSectorSize := fun j hj => (listed _).mpr ⟨j, hj, rfl⟩
  have hzero : ∀ j < n, d.asked (a + 4 * j) = 0 := fun j hj => h.unasked _ (hon j hj).2.1
  have hpasses : ∀ j ≤ n, ∀ b ≤ c.page + stmSectorSize, (∀ i < n, i < j ↔ a + 4 * i < b) →
      c.page ≤ b → (Passes hal d.asked a j ↔ Reached hal m addr len b) := by
    intro j hj b hb hji hge
    constructor
    · intro hpass b' hb' hplan
      rcases Nat.lt_or_ge b' c.page with hlow | hhigh
      · exact h.passed b' hlow hplan
      · obtain ⟨i, hi, rfl⟩ := (listed b').mp ⟨hplan, hhigh, by omega⟩
        have := hpass i ((hji i hi).mpr hb')
        rwa [hzero i hi] at this
    · intro hreach i hi
      rw [hzero i (by omega)]
      exact hreach _ ((hji i (by omega)).mp hi) (hon i (by omega)).1
  have hall : Passes hal d.asked a n ↔ Reached hal m addr len (c.page + stmSectorSize) :=
    hpasses n (Nat.le_refl n) _ (Nat.le_refl _) (fun i hi => ⟨fun _ => (hon i hi).2.2, fun _ => hi⟩)
      (Nat.le_add_right ..)
  have hone : ∀ j < n, (Passes hal d.asked a j ↔ Reached hal m addr len (a + 4 * j)) :=
    fun j hj => hpasses j (by omega) _ (Nat.le_of_lt (hon j hj).2.2) (fun i hi => by omega)
      (hon j hj).2.1
  refine ⟨status.trans (not_congr hall), ?_, ?_, ?_, outside, locks.trans h.locks⟩
  · rintro b hplan lo hi
    obtain ⟨j, hj, rfl⟩ := (listed b).mp ⟨hplan, lo, hi⟩
    rw [asked j hj]
    simp only [hone j hj, hzero j hj, Nat.zero_add, askedFirst]
  · intro b hb
    rw [elsewhere b fun j hj hbj => by have := (hon j hj).2.2; omega]
    exact h.unasked b (by omega)
  · intro j hj
    rw [word j hj]
    simp only [hone j hj, hzero j hj]

/-- A blank page: the words of the range alone are programmed. -/
theorem Head.round_blank (h : Head hal m addr len data inv d c pBuffer t)
    (hblank : ¬ Rewrites m addr len c.page)
    (hread : ∀ j < pageWords, readWord d.mem (c.page + 4 * j) = blank)
    (keep : ∀ r, Programs hal m addr len c.page c.writeAddr pBuffer c.secremain d.mem r →
      inv (c.page + stmSectorSize) r.2.mem) :
    RoundEnd hal m addr len data inv (writeRound hal d c pBuffer) ∧
      (writeRound hal d c pBuffer).page = c.page := by
  have hneed : needErase (stmflashRead_AllWord d.mem c.page) = false := by
    simpa [needErase, stmflashRead_AllWord, stmflashReadAllWord] using hread
  have hplanned := fun b => h.pos.planned (m := m) (fun h' => absurd h' hblank) (b := b)
  simp only [if_neg hblank] at hplanned
  have hseries := h.series pBuffer d.mem hplanned
  have hround : writeRound hal d c pBuffer =
      let r := stmflashWriteNoCheck hal d c.writeAddr pBuffer c.secremain
      ⟨r.1, r.2, c.page, stmflashRead_AllWord d.mem c.page⟩ := by
    simp only [writeRound, hneed, Bool.false_eq_true, if_false]
  rw [hround]
  exact ⟨⟨isPage_page c, keep _ hseries, h.passed, hseries.status, hseries.asked, hseries.unasked,
    hseries.locks, fun h' => absurd h' hblank, fun _ => hread⟩, rfl⟩

/-- A page that is not blank: sector 0 is erased, and the merged page is programmed. -/
theorem Head.round_rewrites (h : Head hal m addr len data inv d c pBuffer t) (ha : addr % 4 = 0)
    (hrewrites : Rewrites m addr len c.page) {j : Nat} (hj : j < pageWords)
    (hdirty : readWord d.mem (c.page + 4 * j) ≠ blank)
    (hfound : ∀ j < pageWords,
      readWord d.mem (c.page + 4 * j) = found hal m addr len (c.page + 4 * j))
    (keep : ∀ p r, (∀ j < pageWords, p j = wanted hal m addr len data (c.page + 4 * j)) →
      Programs hal m addr len c.page c.page p pageWords
        (eraseRegion d.mem fun x => InSector0 x) r → inv (c.page + stmSectorSize) r.2.mem) :
    RoundEnd hal m addr len data inv (writeRound hal d c pBuffer) ∧
      (writeRound hal d c pBuffer).page = c.page := by
  have hneed : needErase (stmflashRead_AllWord d.mem c.page) = true := by
    simp only [needErase, List.any_eq_true, List.mem_range]
    exact ⟨j, hj, bne_iff_ne.mpr hdirty⟩
  have hplanned := fun b => h.pos.planned (m := m) (fun _ => ha) (b := b)
  simp only [if_pos hrewrites] at hplanned
  have hmerged : ∀ j < pageWords,
      mergeWords c pBuffer (stmflashRead_AllWord d.mem c.page) j =
        wanted hal m addr len data (c.page + 4 * j) := by
    intro j hj
    have hat := h.pos.reached
    have hin := h.pos.inPage
    have hleft := h.pos.left
    have hle := c.remain_le
    have hends := h.pos.ends
    have hstarts := h.pos.starts
    unfold mergeWords wanted
    by_cases hrange : c.secoff ≤ j ∧ j < c.secoff + c.secremain
    · rw [if_pos hrange, if_pos ⟨by omega, by omega⟩, h.pos.buffer]
      exact congrArg data (by omega)
    · rw [if_neg hrange, if_neg (by omega)]
      exact hfound j hj
  have hseries := h.series (a := c.page) (n := pageWords)
    (mergeWords c pBuffer (stmflashRead_AllWord d.mem c.page))
    (eraseRegion d.mem fun x => InSector0 x) hplanned
  have hround : writeRound hal d c pBuffer =
      let buf := mergeWords c pBuffer (stmflashRead_AllWord d.mem c.page)
      let r := stmflashWriteNoCheck hal { d with mem := eraseRegion d.mem fun x => InSector0 x }
        c.page buf pageWords
      ⟨r.1, r.2, c.page, buf⟩ := by
    simp only [writeRound, hneed, if_true, flashEraseSector_eraseNumber]
  rw [hround]
  exact ⟨⟨isPage_page c, keep _ _ hmerged hseries, h.passed, hseries.status, hseries.asked,
    hseries.unasked, hseries.locks, fun _ => hmerged, fun h' => absurd hrewrites h'⟩, rfl⟩

theorem Head.start (hal : HalAnswers) (m : Mem) (len : Nat) (data : Nat → Word)
    (lo : flashBase ≤ addr) (hmem : inv (pageStart addr) m) :
    Head hal m addr len data inv (halFlashUnlock hal (.idle m)).2 (Cursor.start addr len) data 0
    where
  pos := At.start lo
  mem := hmem
  passed b hb hplan := by
    have hpage : (Cursor.start addr len).page = pageStart addr := rfl
    rw [hpage] at hb
    obtain ⟨i, hi, rfl⟩ | ⟨hrewrites, hon⟩ := hplan
    · have := (pageStart_bounds lo).1
      omega
    · have hle := hrewrites.1.2.1
      have := ((onPage_iff (isPage_pageStart b)).mp hon).2.1
      omega
  unasked _ _ := rfl
  locks := rfl

theorem Head.next (h : Head hal m addr len data inv d c pBuffer t)
    (hend : RoundEnd hal m addr len data inv (writeRound hal d c pBuffer))
    (hpage : (writeRound hal d c pBuffer).page = c.page)
    (hok : (writeRound hal d c pBuffer).status ≠ .error) (hmore : c.numToWrite ≠ c.secremain) :
    Head hal m addr len data inv (writeRound hal d c pBuffer).dev c.next
      (fun i => pBuffer (i + c.secremain)) (t + c.secremain) := by
  have hreach := Classical.not_not.mp (mt hend.status.mpr hok)
  have hunasked := hend.unasked
  have hmem := hend.mem
  rw [hpage, ← Cursor.next_page] at hreach hunasked hmem
  exact ⟨h.pos.next hmore, hmem, hreach, hunasked, hend.locks⟩

/-- **The loop** leaves off after a round that gave a word up, or after the round of the
last page. -/
theorem Head.loop
    (round : ∀ {d c pBuffer t}, Head hal m addr len data inv d c pBuffer t →
      RoundEnd hal m addr len data inv (writeRound hal d c pBuffer) ∧
        (writeRound hal d c pBuffer).page = c.page)
    (h : Head hal m addr len data inv d c pBuffer t) :
    ∃ r, RoundEnd hal m addr len data inv r ∧
      (r.status = .error ∧
          writeLoop hal d c pBuffer = { r with dev := (halFlashLock hal r.dev).2 } ∨
        r.status ≠ .error ∧ writeLoop hal d c pBuffer = r ∧ r.page = lastPage addr len) := by
  induction hn : c.numToWrite using Nat.strongRecOn generalizing d c pBuffer t with | _ n ih
  obtain ⟨hend, hpage⟩ := round h
  rw [writeLoop_eq]
  dsimp only
  by_cases herr : (writeRound hal d c pBuffer).status = .error
  · rw [if_pos herr]
    exact ⟨_, hend, .inl ⟨herr, rfl⟩⟩
  · rw [if_neg herr]
    by_cases hlast : c.numToWrite = c.secremain
    · rw [if_pos hlast]
      exact ⟨_, hend, .inr ⟨herr, rfl, hpage.trans (h.pos.lastPage hlast)⟩⟩
    · rw [if_neg hlast]
      have hle := c.remain_le
      have hprogress := c.progress
      have hfewer : c.next.numToWrite < n := by rw [Cursor.next_numToWrite]; omega
      exact ih _ hfewer (h.next hend hpage herr hlast) rfl

end Loop

/-! ## What the last round says of the whole loop -/

section Last
variable {hal : HalAnswers} {m : Mem} {addr len : Nat} {data : Nat → Word}
variable {inv : Nat → Mem → Prop} {r : Round} (h : RoundEnd hal m addr len data inv r)
  (hlast : r.status ≠ .error → r.page = lastPage addr len)
include h

theorem RoundEnd.given_up (herr : r.status = .error) :
    ∃ b, r.page ≤ b ∧ b < r.page + stmSectorSize ∧ Planned m addr len b ∧ Fails hal b 0 := by
  have hnot := h.status.mp herr
  simp only [Reached, Classical.not_forall, Classical.not_not] at hnot
  obtain ⟨b, hb, hplan, hfail⟩ := hnot
  exact ⟨b, Nat.le_of_not_lt fun hlow => h.passed b hlow hplan hfail, hb, hplan, hfail⟩

include hlast

theorem RoundEnd.all_pass (lo : flashBase ≤ addr) (hok : r.status ≠ .error) {b : Nat}
    (hplan : Planned m addr len b) : ¬ Fails hal b 0 :=
  Classical.not_not.mp (mt h.status.mpr hok) b (hlast hok ▸ planned_lt lo hplan) hplan

/-- The page of the last round is the one that is programmed again. -/
theorem RoundEnd.repeated_iff (lo : flashBase ≤ addr) {p : Nat} (hp : IsPage p) :
    Repeated hal m addr len p ↔ p = r.page ∧ (r.status = .error ∨ hal.lock 0 = .error) := by
  constructor
  · rintro ⟨hreach, ⟨b, hlow, hhigh, hplan, hfail⟩ | ⟨rfl, hlock, hall⟩⟩
    · have herr : r.status = .error := Classical.not_not.mp fun hok =>
        h.all_pass hlast lo hok hplan hfail
      obtain ⟨b', hlow', hhigh', hplan', hfail'⟩ := h.given_up herr
      have hge : r.page ≤ p := Nat.le_of_not_lt fun hlt =>
        h.passed b (by have := (hp.lt_iff h.page).mp hlt; omega) hplan hfail
      have hle : p ≤ r.page := Nat.le_of_not_lt fun hlt =>
        hreach b' (by have := (h.page.lt_iff hp).mp hlt; omega) hplan' hfail'
      exact ⟨Nat.le_antisymm hle hge, .inl herr⟩
    · have hok : r.status ≠ .error := fun herr => by
        obtain ⟨b, -, -, hplan, hfail⟩ := h.given_up herr
        exact hall b hplan hfail
      exact ⟨(hlast hok).symm, .inr hlock⟩
  · rintro ⟨rfl, hwhy⟩
    by_cases herr : r.status = .error
    · exact ⟨h.passed, .inl (h.given_up herr)⟩
    · exact ⟨h.passed, .inr ⟨hlast herr, hwhy.resolve_left herr,
        fun b hplan => h.all_pass hlast lo herr hplan⟩⟩

/-- No word behind the page of the last round is reached if there are any. -/
theorem RoundEnd.erases_le {q : Nat} (hq : Erases hal m addr len q) : q ≤ r.page := by
  refine Nat.le_of_not_lt fun hlt => ?_
  have hbehind := (h.page.lt_iff hq.1.isPage).mp hlt
  by_cases herr : r.status = .error
  · exact h.status.mp herr (hq.2.mono hbehind)
  · have := hq.1.1.2.2
    rw [hlast herr] at hlt
    omega

end Last

end ControlRTT.Applications.FlashLoop

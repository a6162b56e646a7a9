import ControlRTT.Applications.FlashLoop

/-! # What the rounds of `STMFLASH_Write` leave in the flash

At an aligned address (`Contents`) a round programs its words over what they hold, blanks if
sector 0 has been erased, and a later erase blanks them again. At any other address the words
of a page that is rewritten land too low; where every page is blank to its round (`Straight`)
nothing is erased and the words land where they belong (`InPlace`). -/
namespace ControlRTT.Applications.FlashContents
open ControlRTT.Lib.CInt ControlRTT.Lib.NorFlash ControlRTT.Applications.Flash
open ControlRTT.Applications.FlashAnswers ControlRTT.Applications.FlashPlan
open ControlRTT.Applications.FlashLoop

section
variable {hal : HalAnswers} {m : Mem} {addr len : Nat} {data : Nat → Word} {d : FlashDev}
  {c : Cursor} {pBuffer : Nat → Word} {t : Nat}

/-! ## Aligned addresses -/

/-- The word at `a` after its round. -/
def afterRound (hal : HalAnswers) (m : Mem) (addr len : Nat) (data : Nat → Word) (a : Nat) : Word :=
  if Reached hal m addr len a ∧ Takes hal a 0
  then base hal m addr len a &&& wanted hal m addr len data a else base hal m addr len a

/-- The memory with the pages below `p` done. -/
structure Contents (hal : HalAnswers) (m : Mem) (addr len : Nat) (data : Nat → Word) (p : Nat)
    (mem : Mem) : Prop where
  behind : ∀ a, a % 4 = 0 → flashBase ≤ a → a < p → readWord mem a =
    if InSector0 a ∧ ∃ q < p, pageStart a < q ∧ Erases hal m addr len q then blank
    else afterRound hal m addr len data a
  ahead : ∀ a, a % 4 = 0 → p ≤ a → readWord mem a =
    if InSector0 a ∧ ∃ q < p, Erases hal m addr len q then blank else readWord m a

theorem Contents.start (lo : flashBase ≤ addr) :
    Contents hal m addr len data (pageStart addr) m := by
  have hnone : ∀ q < pageStart addr, ¬ Erases hal m addr len q := fun q hq herases => by
    have := herases.1.1.2.1
    omega
  refine ⟨fun a ha hbase hlt => ?_, fun a ha hge => ?_⟩
  · have hpage := pageStart_bounds hbase
    rw [if_neg fun ⟨_, q, hq, _, herases⟩ => hnone q hq herases]
    have hbefore : base hal m addr len a = readWord m a := by
      unfold base
      rw [if_neg fun ⟨_, q, hq, herases⟩ => hnone q (by omega) herases]
    have hfound : found hal m addr len a = readWord m a := by
      unfold found
      rw [if_neg fun ⟨_, q, hq, herases⟩ => hnone q (by omega) herases]
    have hwanted : wanted hal m addr len data a = readWord m a := by
      unfold wanted
      have := (pageStart_bounds lo).1
      rw [if_neg (by omega), hfound]
    unfold afterRound
    rw [hbefore, hwanted, BitVec.and_self, ite_self]
  · rw [if_neg fun ⟨_, q, hq, herases⟩ => hnone q hq herases]

theorem Contents.read_found (h : Contents hal m addr len data c.page d.mem) {j : Nat}
    (hj : j < pageWords) :
    readWord d.mem (c.page + 4 * j) = found hal m addr len (c.page + 4 * j) := by
  have h4 := (isPage_page c).aligned
  have hon := (onPage_iff (isPage_page c)).mp ⟨j, hj, rfl⟩
  rw [h.ahead _ (by omega) (by omega), found, pageStart_eq (isPage_page c) hon.2.1 hon.2.2]

/-- A page that is not rewritten is blank to its round. -/
theorem Contents.read_blank (h : Contents hal m addr len data c.page d.mem)
    (htouched : Touched addr len c.page) (hpassed : Reached hal m addr len c.page)
    (hnot : ¬ Rewrites m addr len c.page) {j : Nat} (hj : j < pageWords) :
    readWord d.mem (c.page + 4 * j) = blank := by
  have hon := (onPage_iff (isPage_page c)).mp ⟨j, hj, rfl⟩
  rw [h.read_found hj, found, pageStart_eq (isPage_page c) hon.2.1 hon.2.2]
  split
  · rfl
  · next hkept =>
    refine Classical.not_not.mp fun hne => hkept ?_
    have hdirty : Dirty m c.page := dirty_iff.mpr ⟨j, hj, hne⟩
    have hwhy : ∃ q < c.page, InSector0 c.page ∧ Touched addr len q ∧ Dirty m q := by
      refine Classical.not_not.mp fun hnone => hnot ⟨htouched, hdirty, fun hs q hq ht hd => ?_⟩
      exact hnone ⟨q, hq, hs, ht, hd⟩
    obtain ⟨q, hq, hs, ht, hd⟩ := hwhy
    obtain ⟨q', hq', hrewrites⟩ := exists_rewrites ht hd
    exact ⟨((isPage_page c).inSector0_iff hon.2.1 hon.2.2).mpr hs, q', by omega, hrewrites,
      hpassed.mono (by omega)⟩

/-- A page that is rewritten is not blank to its round. -/
theorem Contents.exists_dirty (h : Contents hal m addr len data c.page d.mem)
    (hrewrites : Rewrites m addr len c.page) :
    ∃ j < pageWords, readWord d.mem (c.page + 4 * j) ≠ blank := by
  obtain ⟨j, hj, hne⟩ := dirty_iff.mp hrewrites.2.1
  have hon := (onPage_iff (isPage_page c)).mp ⟨j, hj, rfl⟩
  refine ⟨j, hj, ?_⟩
  rw [h.read_found hj, found, pageStart_eq (isPage_page c) hon.2.1 hon.2.2, if_neg]
  · exact hne
  · rintro ⟨hs, q, hq, herases⟩
    have := hrewrites.first (((isPage_page c).inSector0_iff hon.2.1 hon.2.2).mp hs) herases
    omega

/-- A round that rewrites its page. -/
theorem Contents.rewrite (h : Contents hal m addr len data c.page d.mem)
    (herases : Erases hal m addr len c.page) {p : Nat → Word} {r : HalStatus × FlashDev}
    (hp : ∀ j < pageWords, p j = wanted hal m addr len data (c.page + 4 * j))
    (hr : Programs hal m addr len c.page c.page p pageWords
      (eraseRegion d.mem fun x => InSector0 x) r) :
    Contents hal m addr len data (c.page + stmSectorSize) r.2.mem := by
  have hpage := isPage_page c
  have h4 := hpage.aligned
  have hsize : stmSectorSize = 4 * pageWords := rfl
  have hout : ∀ a, a % 4 = 0 → a < c.page ∨ c.page + stmSectorSize ≤ a → readWord r.2.mem a =
      if InSector0 a then blank else readWord d.mem a := fun a ha hout => by
    rw [← readWord_erased_sector d.mem ha]
    exact wordOf_congr fun i hi => hr.outside _ (by omega)
  refine ⟨fun a ha hbase hlt => ?_, fun a ha hge => ?_⟩
  · obtain hlow | hge := Nat.lt_or_ge a c.page
    · have hstart := pageStart_bounds hbase
      rw [hout a ha (.inl hlow)]
      by_cases hs : InSector0 a
      · rw [if_pos hs, if_pos ⟨hs, c.page, by omega, by omega, herases⟩]
      · rw [if_neg hs, if_neg fun h' => hs h'.1, h.behind a ha hbase hlow, if_neg fun h' => hs h'.1]
    · have hstart := pageStart_eq hpage hge hlt
      obtain ⟨j, hj, rfl⟩ := (onPage_iff hpage).mpr ⟨ha, hge, hlt⟩
      have hbefore : readWord (eraseRegion d.mem fun x => InSector0 x) (c.page + 4 * j) =
          base hal m addr len (c.page + 4 * j) := by
        rw [readWord_erased_sector d.mem ha, base, hstart]
        by_cases hs : InSector0 (c.page + 4 * j)
        · rw [if_pos hs, if_pos ⟨hs, c.page, le_rfl, herases⟩]
        · rw [if_neg hs, if_neg fun h' => hs h'.1, h.ahead _ ha hge, if_neg fun h' => hs h'.1]
      have hlater : ¬ ∃ q < c.page + stmSectorSize, c.page < q ∧ Erases hal m addr len q := by
        rintro ⟨q, hq, hlt', herases'⟩
        have := (herases'.lt_iff hpage).mp hq
        omega
      rw [hstart, if_neg fun h' => hlater h'.2, hr.word j hj, hbefore, hp j hj]
      rfl
  · rw [hout a ha (.inr hge)]
    by_cases hs : InSector0 a
    · rw [if_pos hs, if_pos ⟨hs, c.page, Nat.lt_add_of_pos_right (by decide), herases⟩]
    · rw [if_neg hs, if_neg fun h' => hs h'.1, h.ahead a ha (by omega), if_neg fun h' => hs h'.1]

/-- A round on a page that is blank to it. -/
theorem Contents.fill (h : Contents hal m addr len data c.page d.mem) (ha : addr % 4 = 0)
    (hpos : At addr len data c pBuffer t) (hnot : ¬ Erases hal m addr len c.page)
    {r : HalStatus × FlashDev}
    (hr : Programs hal m addr len c.page c.writeAddr pBuffer c.secremain d.mem r) :
    Contents hal m addr len data (c.page + stmSectorSize) r.2.mem := by
  have hpage := isPage_page c
  have hat := hpos.reached
  have hin := hpos.inPage
  have hfits := hpos.fits
  have hleft := hpos.left
  have hle := c.remain_le
  have hsize : stmSectorSize = 4 * pageWords := rfl
  have hstep : ∀ {q}, Erases hal m addr len q → (q < c.page + stmSectorSize ↔ q < c.page) := by
    intro q herases
    have hne : q ≠ c.page := fun heq => hnot (heq ▸ herases)
    have := herases.lt_iff hpage
    omega
  have hout : ∀ a, a + 4 ≤ c.writeAddr ∨ c.writeAddr + 4 * c.secremain ≤ a →
      readWord r.2.mem a = readWord d.mem a := fun a hout =>
    wordOf_congr fun i hi => hr.outside _ (by omega)
  refine ⟨fun a h4 hbase hlt => ?_, fun a h4 hge => ?_⟩
  · obtain hlow | hge := Nat.lt_or_ge a c.page
    · rw [hout a (.inl (by have := hpage.aligned; omega)), h.behind a h4 hbase hlow]
      refine ite_congr (propext (and_congr_right fun _ => ?_)) (fun _ => rfl) fun _ => rfl
      exact ⟨fun ⟨q, hq, hlt', herases⟩ => ⟨q, by omega, hlt', herases⟩,
        fun ⟨q, hq, hlt', herases⟩ => ⟨q, (hstep herases).mp hq, hlt', herases⟩⟩
    · have hstart := pageStart_eq hpage hge hlt
      have hfound : readWord d.mem a = found hal m addr len a := by
        rw [h.ahead a h4 hge, found, hstart]
      have hbefore : base hal m addr len a = found hal m addr len a := by
        unfold base found
        rw [hstart]
        refine ite_congr (propext (and_congr_right fun _ => ?_)) (fun _ => rfl) fun _ => rfl
        exact ⟨fun ⟨q, hq, herases⟩ => ⟨q, (hstep herases).mp (by omega), herases⟩,
          fun ⟨q, hq, herases⟩ => ⟨q, by omega, herases⟩⟩
      rw [if_neg]
      · unfold afterRound
        rw [hbefore]
        by_cases hrange : c.writeAddr ≤ a ∧ a < c.writeAddr + 4 * c.secremain
        · obtain ⟨j, hj, rfl⟩ : ∃ j < c.secremain, a = c.writeAddr + 4 * j :=
            ⟨(a - c.writeAddr) / 4, by omega, by omega⟩
          have hdata : pBuffer j = wanted hal m addr len data (c.writeAddr + 4 * j) := by
            rw [show c.writeAddr + 4 * j = addr + 4 * (t + j) by omega,
              wanted_range data (by omega), hpos.buffer]
          rw [hr.word j hj, hfound, hdata]
        · have hrest : ¬ (addr ≤ a ∧ a < addr + 4 * len) := fun hin' => by
            have := (hpos.onPage (i := (a - addr) / 4) (by omega)).mp (by omega)
            omega
          have hwanted : wanted hal m addr len data a = found hal m addr len a := by
            unfold wanted
            rw [if_neg hrest]
          rw [hout a (by omega), hfound, hwanted, BitVec.and_self, ite_self]
      · rintro ⟨-, q, hq, hlt', herases⟩
        have := (hstep herases).mp hq
        omega
  · rw [hout a (.inr (by omega)), h.ahead a h4 (by omega)]
    refine ite_congr (propext (and_congr_right fun _ => ?_)) (fun _ => rfl) fun _ => rfl
    exact ⟨fun ⟨q, hq, herases⟩ => ⟨q, by omega, herases⟩,
      fun ⟨q, hq, herases⟩ => ⟨q, (hstep herases).mp hq, herases⟩⟩

/-- **One round** at an aligned address. -/
theorem round_contents (hal : HalAnswers) (m : Mem) (len : Nat) (data : Nat → Word)
    (ha : addr % 4 = 0) (lo : flashBase ≤ addr)
    {d : FlashDev} {c : Cursor} {pBuffer : Nat → Word} {t : Nat}
    (h : Head hal m addr len data (Contents hal m addr len data) d c pBuffer t) :
    RoundEnd hal m addr len data (Contents hal m addr len data) (writeRound hal d c pBuffer) ∧
      (writeRound hal d c pBuffer).page = c.page := by
  by_cases hrewrites : Rewrites m addr len c.page
  · obtain ⟨j, hj, hdirty⟩ := h.mem.exists_dirty hrewrites
    exact h.round_rewrites ha hrewrites hj hdirty (fun j hj => h.mem.read_found hj)
      fun p r hp hr => h.mem.rewrite ⟨hrewrites, h.passed⟩ hp hr
  · refine h.round_blank hrewrites (fun j hj => ?_) fun r hr => ?_
    · exact h.mem.read_blank (h.pos.touched lo) h.passed hrewrites hj
    · exact h.mem.fill ha h.pos (fun herases => hrewrites herases.1) hr

/-! ## Any address -/

/-- Every page of the range is blank, also where the word before reaches into it. -/
structure Straight (m : Mem) (addr len : Nat) (data : Nat → Word) : Prop where
  blank : ∀ p, Touched addr len p → ¬ Dirty m p
  inside : ∀ i, i + 1 < len → ∀ k < 4,
    pageStart (addr + 4 * i) + stmSectorSize ≤ addr + 4 * i + k → byteOf (data i) k = 0xFF#8

theorem Straight.not_rewrites (h : Straight m addr len data) {p : Nat} :
    ¬ Rewrites m addr len p := fun h' => h.blank p h'.1 h'.2.1

theorem Straight.not_erases (h : Straight m addr len data) {p : Nat} :
    ¬ Erases hal m addr len p := fun h' => h.not_rewrites h'.1

/-- The memory with the words below `p` done. -/
structure InPlace (hal : HalAnswers) (m : Mem) (addr len : Nat) (data : Nat → Word) (p : Nat)
    (mem : Mem) : Prop where
  word : ∀ i < len, readWord mem (addr + 4 * i) =
    if addr + 4 * i < p ∧ Reached hal m addr len (addr + 4 * i) ∧ Takes hal (addr + 4 * i) 0
    then readWord m (addr + 4 * i) &&& data i else readWord m (addr + 4 * i)
  ahead : Touched addr len p → ∀ x, p ≤ x → mem x = m x

theorem InPlace.start (lo : flashBase ≤ addr) : InPlace hal m addr len data (pageStart addr) m where
  word i _ := by
    have := (pageStart_bounds lo).1
    rw [if_neg (by omega)]
  ahead _ _ _ := rfl

/-- A round programs its words where they belong. -/
theorem InPlace.fill (h : InPlace hal m addr len data c.page d.mem)
    (hstraight : Straight m addr len data) (hpos : At addr len data c pBuffer t)
    (htouched : Touched addr len c.page) {r : HalStatus × FlashDev}
    (hr : Programs hal m addr len c.page c.writeAddr pBuffer c.secremain d.mem r) :
    InPlace hal m addr len data (c.page + stmSectorSize) r.2.mem := by
  have hpage := isPage_page c
  have hat := hpos.reached
  have hin := hpos.inPage
  have hleft := hpos.left
  have hle := c.remain_le
  have hsize : stmSectorSize = 2048 := rfl
  refine ⟨fun i hi => ?_, fun hnext x hx => ?_⟩
  · have hold := h.word i hi
    have hon := hpos.onPage hi
    by_cases hmine : t ≤ i ∧ i < t + c.secremain
    · obtain ⟨hlo, hhi⟩ := hon.mpr hmine
      obtain ⟨j, rfl⟩ := Nat.exists_eq_add_of_le hmine.1
      have haddr : addr + 4 * (t + j) = c.writeAddr + 4 * j := by omega
      have hword := hr.word j (by omega)
      rw [if_neg fun h' => absurd h'.1 (Nat.not_lt_of_le hlo)] at hold
      rw [hpos.buffer, ← haddr, hold] at hword
      rw [hword]
      simp only [hhi, true_and]
    · have hkept : readWord r.2.mem (addr + 4 * i) = readWord d.mem (addr + 4 * i) :=
        wordOf_congr fun k hk => hr.outside _ (by omega)
      rw [hkept, hold]
      have hiff : addr + 4 * i < c.page ↔ addr + 4 * i < c.page + stmSectorSize := by
        have := mt hon.mp hmine
        omega
      simp only [hiff]
  · obtain hout | hover := Nat.lt_or_ge x (c.writeAddr + 4 * c.secremain)
    · -- the last word of the round reaches into the next page, with bytes that clear nothing
      have hlast := hnext.2.2
      have hmore : t + c.secremain < len := by
        refine Nat.lt_of_not_le fun hall => ?_
        have := hpos.lastPage (by omega)
        omega
      have hsome := hpos.more
      obtain ⟨n, hn⟩ : ∃ n, c.secremain = n + 1 := ⟨c.secremain - 1, by omega⟩
      obtain ⟨hlo, hhi⟩ := (hpos.onPage (i := t + n) (by omega)).mpr (by omega)
      obtain ⟨k, rfl⟩ := Nat.exists_eq_add_of_le (Nat.le_of_lt (hhi.trans_le hx))
      have hk : k < 4 := by omega
      have hbyte := hstraight.inside (t + n) (by omega) k hk
        (by rwa [pageStart_eq hpage hlo hhi])
      have hword := hr.word n (by omega)
      rw [hpos.buffer, show c.writeAddr + 4 * n = addr + 4 * (t + n) by omega] at hword
      have hnew := byteOf_readWord r.2.mem (addr + 4 * (t + n)) hk
      have hold := byteOf_readWord d.mem (addr + 4 * (t + n)) hk
      rw [← h.ahead htouched _ (by omega), ← hnew, ← hold, hword]
      split
      · rw [byteOf_and, hbyte]
        exact BitVec.and_allOnes
      · rfl
    · rw [hr.outside x (.inr hover)]
      exact h.ahead htouched x (by omega)

/-- **One round** where every page is blank. -/
theorem round_inPlace (hal : HalAnswers) (hstraight : Straight m addr len data)
    (lo : flashBase ≤ addr) {d : FlashDev} {c : Cursor} {pBuffer : Nat → Word} {t : Nat}
    (h : Head hal m addr len data (InPlace hal m addr len data) d c pBuffer t) :
    RoundEnd hal m addr len data (InPlace hal m addr len data) (writeRound hal d c pBuffer) ∧
      (writeRound hal d c pBuffer).page = c.page := by
  have htouched := h.pos.touched lo
  refine h.round_blank hstraight.not_rewrites (fun j hj => ?_) fun r hr => ?_
  · have hsame : readWord d.mem (c.page + 4 * j) = readWord m (c.page + 4 * j) :=
      wordOf_congr fun k hk => h.mem.ahead htouched _ (by omega)
    rw [hsame]
    exact Classical.not_not.mp fun hne => hstraight.blank _ htouched (dirty_iff.mpr ⟨j, hj, hne⟩)
  · exact h.mem.fill hstraight h.pos htouched hr

end

end ControlRTT.Applications.FlashContents

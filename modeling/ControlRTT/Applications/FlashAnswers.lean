import ControlRTT.Applications.Flash

/-! # Programming a series of words

`STMFLASH_Write_NoCheck` programs words one after the other and stops at the first
that the HAL refuses eleven times. Which words it programs, and with how many requests,
follows from the answers of the HAL alone (`Series`). -/
namespace ControlRTT.Applications.FlashAnswers
open ControlRTT.Lib.CInt ControlRTT.Lib.NorFlash ControlRTT.Applications.Flash

/-! ## One word, after `k` earlier requests for it -/

section Answers
variable (hal : HalAnswers) (a k : Nat)

/-- The word is given up: `HAL_ERROR`, and none of the ten retries succeeds. -/
def Fails : Prop := hal.program a k = .error ∧ ∀ j < 10, hal.program a (k + 1 + j) ≠ .ok

/-- The retries made of at most `n`. -/
def retries (k : Nat) : Nat → Nat
  | 0 => 0
  | n + 1 => if hal.program a k = .ok then 1 else 1 + retries (k + 1) n

/-- The requests made for the word. -/
def used : Nat := 1 + if hal.program a k = .error then retries hal a (k + 1) 10 else 0

/-- One of the requests made for the word programs it. -/
def Takes : Prop := ∃ j < used hal a k, hal.programs a (k + j)

instance : Decidable (Fails hal a k) := inferInstanceAs (Decidable (_ ∧ _))
instance : Decidable (Takes hal a k) := inferInstanceAs (Decidable (∃ j < used hal a k, _))

end Answers

theorem not_fails_allOk (a k : Nat) : ¬ Fails allOk a k := fun h => nomatch h.1

theorem takes_allOk (a k : Nat) : Takes allOk a k := ⟨0, Nat.zero_lt_one, rfl⟩

/-! ## Requests for one word -/

/-- From `d` to `d'`, `n` requests to program `w` at `a` are made, one of them accepted
exactly if `ok` holds. -/
structure Asks (a : Nat) (w : Word) (n : Nat) (ok : Prop) (d d' : FlashDev) : Prop where
  asked : ∀ b, d'.asked b = d.asked b + if b = a then n else 0
  programmed : ok → d'.mem = programWord d.mem a w
  kept : ¬ ok → d'.mem = d.mem
  locks : d'.locks = d.locks

section Word
variable {d : FlashDev} {a : Nat} {w : Word}

theorem Asks.program (hal : HalAnswers) (d : FlashDev) (a : Nat) (w : Word) :
    Asks a w 1 (hal.programs a (d.asked a)) d (halFlashProgram hal d a w).2 :=
  ⟨fun _ => rfl, fun h => if_pos h, fun h => if_neg h, rfl⟩

theorem Asks.trans {d' d'' : FlashDev} {n n' : Nat} {ok ok' : Prop} (h : Asks a w n ok d d')
    (h' : Asks a w n' ok' d' d'') : Asks a w (n + n') (ok ∨ ok') d d'' := by
  refine ⟨fun b => ?_, fun hok => ?_, fun hno => ?_, h'.locks.trans h.locks⟩
  · rw [h'.asked, h.asked]
    split <;> omega
  · by_cases hfirst : ok
    · have hmem := h.programmed hfirst
      by_cases hlater : ok'
      · rw [h'.programmed hlater, hmem, programWord_programWord]
      · rw [h'.kept hlater, hmem]
    · rw [h'.programmed (hok.resolve_left hfirst), h.kept hfirst]
  · obtain ⟨hfirst, hlater⟩ := not_or.mp hno
    rw [h'.kept hlater, h.kept hfirst]

theorem Asks.congr {d' : FlashDev} {n n' : Nat} {ok ok' : Prop} (h : Asks a w n ok d d')
    (hn : n = n') (hok : ok ↔ ok') : Asks a w n' ok' d d' := by
  rw [← hn]
  exact ⟨h.asked, fun h' => h.programmed (hok.mpr h'), fun h' => h.kept (mt hok.mp h'), h.locks⟩

/-- The word holds what it held, and'ed with `w` if a request was accepted. -/
theorem Asks.readWord {d' : FlashDev} {n : Nat} {ok : Prop} [Decidable ok]
    (h : Asks a w n ok d d') :
    readWord d'.mem a = if ok then readWord d.mem a &&& w else readWord d.mem a := by
  split
  · next hok => rw [h.programmed hok, readWord_programWord_self]
  · next hok => rw [h.kept hok]

theorem Asks.outside {d' : FlashDev} {n : Nat} {ok : Prop} (h : Asks a w n ok d d') {x : Nat}
    (hx : x < a ∨ a + 4 ≤ x) : d'.mem x = d.mem x := by
  by_cases hok : ok
  · rw [h.programmed hok, programWord_outside _ _ hx]
  · rw [h.kept hok]

/-- The first of `n + 1` indices, or a later one. -/
theorem exists_lt_one_add (P : Nat → Prop) (n k : Nat) :
    (∃ j < 1 + n, P (k + j)) ↔ P k ∨ ∃ j < n, P (k + 1 + j) := by
  constructor
  · rintro ⟨j, hj, h⟩
    cases j with
    | zero => exact .inl h
    | succ j => exact .inr ⟨j, by omega, by rwa [show k + 1 + j = k + (j + 1) by omega]⟩
  · rintro (h | ⟨j, hj, h⟩)
    · exact ⟨0, by omega, h⟩
    · exact ⟨j + 1, by omega, by rwa [show k + (j + 1) = k + 1 + j by omega]⟩

/-- Retries succeed if one of them is answered `HAL_OK`. -/
theorem retry_spec (hal : HalAnswers) (a : Nat) (w : Word) (n : Nat) (d : FlashDev) :
    ((retry hal a w n d).1 = true ↔ ∃ j < n, hal.program a (d.asked a + j) = .ok) ∧
    Asks a w (retries hal a (d.asked a) n)
      (∃ j < retries hal a (d.asked a) n, hal.programs a (d.asked a + j)) d
      (retry hal a w n d).2 := by
  induction n generalizing d with
  | zero =>
    exact ⟨by simp [retry], ⟨by simp [retry, retries], by simp [retries], fun _ => rfl, rfl⟩⟩
  | succ n ih =>
    have hfirst := Asks.program hal d a w
    by_cases hok : hal.program a (d.asked a) = .ok
    · rw [retry, halFlashProgram_status, if_pos hok, retries, if_pos hok]
      exact ⟨⟨fun _ => ⟨0, by omega, hok⟩, fun _ => rfl⟩, hfirst.congr rfl (by simp)⟩
    · obtain ⟨hfound, hlater⟩ := ih (halFlashProgram hal d a w).2
      have hasked : (halFlashProgram hal d a w).2.asked a = d.asked a + 1 := by
        rw [hfirst.asked, if_pos rfl]
      rw [hasked] at hfound hlater
      rw [retry, halFlashProgram_status, if_neg hok, retries, if_neg hok]
      refine ⟨hfound.trans ?_, (hfirst.trans hlater).congr rfl
        (exists_lt_one_add (fun j => hal.programs a j) _ _).symm⟩
      rw [Nat.add_comm n 1, exists_lt_one_add fun j => hal.program a j = .ok]
      exact (or_iff_right hok).symm

/-- One word of `STMFLASH_Write_NoCheck`: whether the series goes on, and the device. -/
def programWithRetries (hal : HalAnswers) (d : FlashDev) (a : Nat) (w : Word) : Bool × FlashDev :=
  let r := halFlashProgram hal d a w
  if r.1 = .error then retry hal a w 10 r.2 else (true, r.2)

theorem programWithRetries_spec (hal : HalAnswers) (d : FlashDev) (a : Nat) (w : Word) :
    ((programWithRetries hal d a w).1 = true ↔ ¬ Fails hal a (d.asked a)) ∧
    Asks a w (used hal a (d.asked a)) (Takes hal a (d.asked a)) d
      (programWithRetries hal d a w).2 := by
  have hfirst := Asks.program hal d a w
  have hasked : (halFlashProgram hal d a w).2.asked a = d.asked a + 1 := by
    rw [hfirst.asked, if_pos rfl]
  by_cases herr : hal.program a (d.asked a) = .error
  · obtain ⟨hfound, hlater⟩ := retry_spec hal a w 10 (halFlashProgram hal d a w).2
    rw [hasked] at hfound hlater
    rw [programWithRetries, halFlashProgram_status, if_pos herr]
    have hused : 1 + retries hal a (d.asked a + 1) 10 = used hal a (d.asked a) := by
      rw [used, if_pos herr]
    refine ⟨hfound.trans (by simp [Fails, herr]), (hfirst.trans hlater).congr hused ?_⟩
    rw [Takes, ← hused]
    exact (exists_lt_one_add (fun j => hal.programs a j) _ _).symm
  · rw [programWithRetries, halFlashProgram_status, if_neg herr]
    have hused : 1 = used hal a (d.asked a) := by rw [used, if_neg herr]
    exact ⟨by simp [Fails, herr], hfirst.congr hused (by simp [Takes, ← hused])⟩

theorem stmflashWriteNoCheck_succ (hal : HalAnswers) (d : FlashDev) (writeAddr : Nat)
    (pBuffer : Nat → Word) (n : Nat) :
    stmflashWriteNoCheck hal d writeAddr pBuffer (n + 1) =
      let q := programWithRetries hal d writeAddr (pBuffer 0)
      if q.1 then stmflashWriteNoCheck hal q.2 (writeAddr + 4) (fun i => pBuffer (i + 1)) n
      else (.error, q.2) := by
  simp only [stmflashWriteNoCheck, programWithRetries]
  split <;> rfl

end Word

/-! ## A series of words -/

/-- No word before `n` is given up, `k` counting the requests made before the series. -/
def Passes (hal : HalAnswers) (k : Nat → Nat) (a n : Nat) : Prop :=
  ∀ j < n, ¬ Fails hal (a + 4 * j) (k (a + 4 * j))

instance (hal : HalAnswers) (k : Nat → Nat) (a n : Nat) : Decidable (Passes hal k a n) :=
  inferInstanceAs (Decidable (∀ j < n, _))

/-- What `STMFLASH_Write_NoCheck` makes of `n` words at `a`: word `j` is reached if no
word before it is given up, and then the HAL's answers decide. -/
structure Series (hal : HalAnswers) (a : Nat) (p : Nat → Word) (n : Nat) (d : FlashDev)
    (r : HalStatus × FlashDev) : Prop where
  status : r.1 = .error ↔ ¬ Passes hal d.asked a n
  asked : ∀ j < n, r.2.asked (a + 4 * j) = d.asked (a + 4 * j) +
    if Passes hal d.asked a j then used hal (a + 4 * j) (d.asked (a + 4 * j)) else 0
  elsewhere : ∀ b, (∀ j < n, b ≠ a + 4 * j) → r.2.asked b = d.asked b
  word : ∀ j < n, readWord r.2.mem (a + 4 * j) =
    if Passes hal d.asked a j ∧ Takes hal (a + 4 * j) (d.asked (a + 4 * j))
    then readWord d.mem (a + 4 * j) &&& p j else readWord d.mem (a + 4 * j)
  outside : ∀ x, x < a ∨ a + 4 * n ≤ x → r.2.mem x = d.mem x
  locks : r.2.locks = d.locks

theorem Passes.succ_iff {hal : HalAnswers} {k k' : Nat → Nat} {a n : Nat}
    (hk : ∀ b, b ≠ a → k' b = k b) :
    Passes hal k a (n + 1) ↔ ¬ Fails hal a (k a) ∧ Passes hal k' (a + 4) n := by
  constructor
  · refine fun h => ⟨h 0 (by omega), fun j hj => ?_⟩
    rw [hk _ (by omega), show a + 4 + 4 * j = a + 4 * (j + 1) by omega]
    exact h (j + 1) (by omega)
  · rintro ⟨hnow, hlater⟩ j hj
    cases j with
    | zero => exact hnow
    | succ j =>
      have := hlater j (by omega)
      rwa [hk _ (by omega), show a + 4 + 4 * j = a + 4 * (j + 1) by omega] at this

theorem passes_zero (hal : HalAnswers) (k : Nat → Nat) (a : Nat) : Passes hal k a 0 :=
  fun _ h => absurd h (Nat.not_lt_zero _)

/-- A word apart from one that is programmed is read as before. -/
theorem readWord_of_outside {d d' : FlashDev} {a b : Nat}
    (h : ∀ x, x < a ∨ a + 4 ≤ x → d'.mem x = d.mem x) (hb : b + 4 ≤ a ∨ a + 4 ≤ b) :
    readWord d'.mem b = readWord d.mem b := wordOf_congr fun i hi => h _ (by omega)

theorem noCheck_series (hal : HalAnswers) (d : FlashDev) (a : Nat) (p : Nat → Word) (n : Nat) :
    Series hal a p n d (stmflashWriteNoCheck hal d a p n) := by
  induction n generalizing d a p with
  | zero =>
    exact ⟨by simp [stmflashWriteNoCheck, Passes], by simp, fun _ _ => rfl, by simp,
      fun _ _ => rfl, rfl⟩
  | succ n ih =>
    obtain ⟨hgo, hasks⟩ := programWithRetries_spec hal d a (p 0)
    rw [stmflashWriteNoCheck_succ]
    generalize programWithRetries hal d a (p 0) = q at *
    have hk : ∀ b, b ≠ a → q.2.asked b = d.asked b := fun b hb => by
      rw [hasks.asked, if_neg hb]
      rfl
    have hhere : q.2.asked a = d.asked a + used hal a (d.asked a) := by
      rw [hasks.asked, if_pos rfl]
    have hword : readWord q.2.mem a = if Takes hal a (d.asked a) then readWord d.mem a &&& p 0
        else readWord d.mem a := hasks.readWord
    have hbehind : ∀ j, readWord q.2.mem (a + 4 * (j + 1)) = readWord d.mem (a + 4 * (j + 1)) :=
      fun j => readWord_of_outside (fun x => hasks.outside) (by omega)
    by_cases hfail : Fails hal a (d.asked a)
    · -- the first word is given up and the series ends
      have hstop : ∀ j, ¬ Passes hal d.asked a (j + 1) := fun j h =>
        ((Passes.succ_iff hk).mp h).1 hfail
      have hq : ¬ q.1 = true := fun h => hgo.mp h hfail
      simp only [if_neg hq]
      refine ⟨by simp [hstop], ?_, fun b hb => hk b (hb 0 (by omega)), ?_, ?_, hasks.locks⟩
      · rintro (_ | j) hj
        · rw [if_pos (passes_zero hal d.asked a)]
          exact hhere
        · rw [if_neg (hstop j)]
          exact hk _ (by omega)
      · rintro (_ | j) hj
        · simp only [passes_zero, true_and]
          exact hword
        · rw [if_neg fun h => hstop j h.1]
          exact hbehind j
      · exact fun x hx => hasks.outside (by omega)
    · have hnext : ∀ j, Passes hal d.asked a (j + 1) ↔ Passes hal q.2.asked (a + 4) j := fun j =>
        (Passes.succ_iff hk).trans (and_iff_right hfail)
      have haddr : ∀ j, a + 4 + 4 * j = a + 4 * (j + 1) := fun j => by omega
      obtain ⟨istatus, iasked, ielse, iword, ioutside, ilocks⟩ :=
        ih q.2 (a + 4) fun i => p (i + 1)
      simp only [if_pos (hgo.mpr hfail)]
      refine ⟨istatus.trans (not_congr (hnext n).symm), ?_, ?_, ?_, ?_, ilocks.trans hasks.locks⟩
      · rintro (_ | j) hj
        · rw [if_pos (passes_zero hal d.asked a)]
          exact (ielse a fun i _ => by omega).trans hhere
        · have hlater := iasked j (by omega)
          rw [haddr, hk _ (by omega)] at hlater
          simp only [hnext]
          exact hlater
      · intro b hb
        rw [ielse b fun j hj => haddr j ▸ hb (j + 1) (by omega)]
        exact hk b (hb 0 (by omega))
      · rintro (_ | j) hj
        · simp only [passes_zero, true_and]
          exact (wordOf_congr fun i hi => ioutside (a + i) (.inl (by omega))).trans hword
        · have hlater := iword j (by omega)
          rw [haddr, hk _ (by omega), hbehind] at hlater
          simp only [hnext]
          exact hlater
      · intro x hx
        rw [ioutside x (by omega)]
        exact hasks.outside (by omega)

end ControlRTT.Applications.FlashAnswers

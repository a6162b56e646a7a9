import ControlRTT.Applications.RunSpeed

/-! # The compare values of the sticks

The timer runs to 100 and a joystick value to 4095, so a value has to be mapped before
it is programmed. `user_pwm_setvalue` computes the mapped duty and programs the value
itself: the two are the same for the value 0 alone (`duty_iff_zero`). -/
namespace ControlRTT.Applications.Pwm
open ControlRTT.Lib ControlRTT.Lib.CInt ControlRTT.Lib.NorFlash
open ControlRTT.Applications.BlueFrame (BlueCall)
open ControlRTT.Applications.Config ControlRTT.Applications.Axes ControlRTT.Applications.Joystick
open ControlRTT.Applications.Control ControlRTT.Applications.RunSpeed

/-! ## One value -/

/-- A joystick value is in range and its compare value is the mapped duty, within the period. -/
def DutyOk (value : Int) (pulse : Nat) : Prop :=
  0 ≤ value ∧ value ≤ 4095 ∧ pulse = mappedDuty value.toNat ∧ pulse ≤ timPeriod

/-- **The value that is its own duty is 0.** -/
theorem duty_iff_zero (value : Int) : DutyOk value (value % 65536).toNat ↔ value = 0 := by
  unfold DutyOk mappedDuty timPeriod
  constructor
  · intro ⟨lo, hi, hduty, _⟩
    obtain ⟨n, rfl⟩ := Int.eq_ofNat_of_zero_le lo
    rw [Int.toNat_natCast, show ((n : Int) % 65536).toNat = n by omega] at hduty
    omega
  · intro h
    subst h
    decide

/-- Every compare value programmed is right. -/
def PwmOk (done : List Effect) : Prop :=
  ∀ channel value pulse, .pwm channel value pulse ∈ done → DutyOk value pulse

theorem pwmOk_append (xs ys : List Effect) : PwmOk (xs ++ ys) ↔ PwmOk xs ∧ PwmOk ys := by
  unfold PwmOk
  simp only [List.mem_append]
  constructor
  · intro h
    exact ⟨fun c v p hp => h c v p (.inl hp), fun c v p hp => h c v p (.inr hp)⟩
  · intro ⟨hx, hy⟩ c v p hp
    cases hp with
    | inl hp => exact hx c v p hp
    | inr hp => exact hy c v p hp

/-- A division programs nothing. -/
theorem pwmOk_divide (divisor : Int) (done : List Effect) :
    PwmOk (.divide divisor :: done) ↔ PwmOk done := by
  unfold PwmOk
  simp only [List.mem_cons, reduceCtorEq, false_or]

/-- A call for one of the left sticks is right for the value 0 alone. -/
theorem pwmOk_userPwmSetvalue (value : Int) {pwmIndex : Nat}
    (h : pwmIndex = lstickH ∨ pwmIndex = lstickV) :
    PwmOk (userPwmSetvalue value pwmIndex) ↔ value = 0 := by
  rw [← duty_iff_zero]
  rcases h with rfl | rfl
  · constructor
    · intro h
      exact h 1 value _ List.mem_cons_self
    · intro h c v p hp
      cases List.mem_singleton.mp hp
      exact h
  · constructor
    · intro h
      exact h 2 value _ List.mem_cons_self
    · intro h c v p hp
      cases List.mem_singleton.mp hp
      exact h

/-! ## The sticks -/

/-- The word has none of the axis's directions and magnitude zero. -/
def Neutral (up down : Byte) (w : BitVec 32) : Prop :=
  macndire w ≠ up ∧ macndire w ≠ down ∧ (macnSpeed w).toNat = 0

theorem horizontal_eq_zero_iff (up down dire : Byte) (speed : Nat) :
    horizontal up down dire speed = 0 ↔ dire ≠ up ∧ dire ≠ down ∧ speed = 0 := by
  have hstep : Int.tdiv 2048 60 = 34 := rfl
  unfold horizontal
  rw [hstep]
  by_cases hup : dire = up
  · rw [if_pos hup]
    simp only [hup, ne_eq, not_true_eq_false, false_and, iff_false]
    omega
  · rw [if_neg hup]
    by_cases hdown : dire = down
    · rw [if_pos hdown]
      simp only [hdown, ne_eq, not_true_eq_false, false_and, and_false, iff_false]
      omega
    · rw [if_neg hdown]
      simp only [hup, hdown, ne_eq, not_false_eq_true, true_and]
      omega

theorem pwmOk_setRightjoytick (w : BitVec 32) :
    PwmOk (setRightjoytick (macndire w) (macnSpeed w).toNat) ↔ Neutral macnRight macnLeft w := by
  unfold setRightjoytick
  rw [pwmOk_userPwmSetvalue _ (.inl rfl), horizontal_eq_zero_iff]
  rfl

theorem pwmOk_setCebodyjoytick (w : BitVec 32) :
    PwmOk (setCebodyjoytick (macndire w) (macnSpeed w).toNat) ↔
      Neutral macnCeright macnCeleft w := by
  unfold setCebodyjoytick
  rw [pwmOk_userPwmSetvalue _ (.inl rfl), horizontal_eq_zero_iff]
  rfl

/-- The run stick is at 0 only at the end of its way back. -/
theorem pwmOk_setRunjoytick (g : StuFlashData) {dire : Byte} {speed : Int} (hs : 0 ≤ speed)
    (hdire : dire = macnForward ∨ dire = macnBackup ∨ dire = macnStop) :
    PwmOk (setRunjoytick g dire speed) ↔
      dire = macnBackup ∧ Int.tdiv 2048 g.hMaxSpeed.toNat * speed = 2048 := by
  unfold setRunjoytick
  rcases hdire with rfl | rfl | rfl
  · have hway : 0 ≤ Int.tdiv 2048 g.qMaxSpeed.toNat * speed :=
      Int.mul_nonneg (Int.tdiv_nonneg (by decide) (Int.natCast_nonneg _)) hs
    rw [if_pos rfl, pwmOk_divide, pwmOk_userPwmSetvalue _ (.inr rfl)]
    have hne : macnForward ≠ macnBackup := by decide
    simp only [hne, false_and, iff_false]
    omega
  · rw [if_neg (by decide), if_pos rfl, pwmOk_divide, pwmOk_userPwmSetvalue _ (.inr rfl)]
    simp only [true_and]
    omega
  · rw [if_neg (by decide), if_neg (by decide), if_pos rfl, pwmOk_userPwmSetvalue _ (.inr rfl)]
    have hne : macnStop ≠ macnBackup := by decide
    simp only [hne, false_and, iff_false]
    decide

/-! ## Runs -/

/-- The direction byte of the run word in every reachable state. -/
theorem reached_macndire_run (m : Mem) (events : List Event) :
    let dire := macndire (reached m events).body.gBodyExecInfo.run
    dire = macnForward ∨ dire = macnBackup ∨ dire = macnStop := by
  obtain ⟨direction, speed, -, hdir, hword⟩ := (reached_runInv m events).word
  dsimp only
  rw [hword.dire_eq]
  rcases hdir with rfl | rfl | rfl
  · exact .inl (by decide)
  · exact .inr (.inl (by decide))
  · exact .inr (.inr (by decide))

/-- **When a control step programs the right compare values**, in every state of every run:
all three sticks are at 0. -/
theorem control_pwm_iff (m : Mem) (events : List Event) :
    let s := reached m events
    let info := s.body.gBodyExecInfo
    PwmOk (step s .control).2 ↔
      Neutral macnRight macnLeft info.right ∧ Neutral macnCeright macnCeleft info.ceBody ∧
        macndire info.run = macnBackup ∧
        Int.tdiv 2048 s.gFlashData.hMaxSpeed.toNat * (macnSpeed info.run).toNat = 2048 := by
  intro s info
  have hdire := reached_macndire_run m events
  change PwmOk (setMacbWorkStatus s.gFlashData info) ↔ _
  unfold setMacbWorkStatus
  rw [pwmOk_append, pwmOk_append, pwmOk_setRightjoytick, pwmOk_setCebodyjoytick,
    pwmOk_setRunjoytick s.gFlashData (Int.natCast_nonneg _) hdire, and_assoc]

/-- With the sensor at rest the run stick is centred, and 2048 is programmed for it. -/
theorem centred_stick_beyond_period :
    ¬ ∀ (m : Mem) (events : List Event),
      let s := reached m events
      s.gFlashData.qMaxSpeed ≠ 0 → s.gFlashData.hMaxSpeed ≠ 0 → PwmOk (step s .control).2 := by
  intro h
  have hok := h erased [.blue (.initBlueStatus #v[0, 0, 0, 0, 0, 0]),
    .blue (.ansyBlueStatus #v[0, 0, 0, 0, 0, 0])] (by decide +kernel) (by decide +kernel)
  have hpulse := (hok 2 2048 2048 (by decide +kernel)).2.2.2
  exact absurd hpulse (by decide)

end ControlRTT.Applications.Pwm

import ControlRTT.Applications.RunSpeed

/-! # The divisors of the control path

Three bytes of the record are divided by: the calibration divides by
`bodyAngle - stoprun`, the control step by one of the maximum speeds. `initFlash`
checks one of them once and `getCmdData` none, so what keeps the divisors from zero is
what the last commands set (`divisors_nonzero_iff`). -/
namespace ControlRTT.Applications.Divisors
open ControlRTT.Lib ControlRTT.Lib.CInt ControlRTT.Lib.NorFlash
open ControlRTT.Applications.BlueFrame (BlueCall)
open ControlRTT.Applications.Config ControlRTT.Applications.Axes ControlRTT.Applications.Joystick
open ControlRTT.Applications.Control ControlRTT.Applications.RunSpeed

/-! ## What the commands leave -/

/-- The low data byte of the last command with code `cmd`, or `byte` if there is none. -/
def lastLow (cmd : Nat) (byte : Byte) : List CmdBuff → Byte
  | [] => byte
  | buff :: later => lastLow cmd (if cmdOf buff = cmd then buff[5]! else byte) later

/-- The state after a list of commands. -/
def configured (s : AppState) (cmds : List CmdBuff) : AppState :=
  Mealy.final step s (cmds.map .command)

theorem configured_cons (s : AppState) (buff : CmdBuff) (cmds : List CmdBuff) :
    configured s (buff :: cmds) =
      configured { s with gFlashData := (getCmdData s.gFlashData buff).1 } cmds := rfl

/-- Commands leave the state of the body alone. -/
theorem configured_body (s : AppState) (cmds : List CmdBuff) :
    (configured s cmds).body = s.body := by
  induction cmds generalizing s with
  | nil => rfl
  | cons buff later ih => rw [configured_cons, ih]

/-- No command sets the angle of the body. -/
theorem configured_bodyAngle (s : AppState) (cmds : List CmdBuff) :
    (configured s cmds).gFlashData.bodyAngle = s.gFlashData.bodyAngle := by
  induction cmds generalizing s with
  | nil => rfl
  | cons buff later ih => rw [configured_cons, ih, getCmdData_bodyAngle]

theorem configured_stoprun (s : AppState) (cmds : List CmdBuff) :
    (configured s cmds).gFlashData.stoprun =
      lastLow revCmdTypeStopData s.gFlashData.stoprun cmds := by
  induction cmds generalizing s with
  | nil => rfl
  | cons buff later ih => rw [configured_cons, ih, getCmdData_stoprun, lastLow]

theorem configured_qMaxSpeed (s : AppState) (cmds : List CmdBuff) :
    (configured s cmds).gFlashData.qMaxSpeed =
      lastLow revCmdTypeRunSpeed s.gFlashData.qMaxSpeed cmds := by
  induction cmds generalizing s with
  | nil => rfl
  | cons buff later ih => rw [configured_cons, ih, getCmdData_qMaxSpeed, lastLow]

theorem configured_hMaxSpeed (s : AppState) (cmds : List CmdBuff) :
    (configured s cmds).gFlashData.hMaxSpeed =
      lastLow revCmdTypeHoutuiInfo s.gFlashData.hMaxSpeed cmds := by
  induction cmds generalizing s with
  | nil => rfl
  | cons buff later ih => rw [configured_cons, ih, getCmdData_hMaxSpeed, lastLow]

theorem commands_divide (s : AppState) (cmds : List CmdBuff) (divisor : Int) :
    .divide divisor ∉ effects s (cmds.map .command) := by
  induction cmds generalizing s with
  | nil => exact List.not_mem_nil
  | cons buff later ih =>
    rw [List.map_cons, effects_cons, List.mem_append]
    intro h
    cases h with
    | inl h => exact getCmdData_divide s.gFlashData buff divisor h
    | inr h => exact ih _ h

/-! ## What the frames and the control step divide by -/

theorem blue_gFlashData (s : AppState) (calls : List BlueCall) :
    (Mealy.final step s (calls.map .blue)).gFlashData = s.gFlashData := by
  induction calls generalizing s with
  | nil => rfl
  | cons call later ih =>
    rw [List.map_cons, Mealy.final_cons, ih]
    cases call <;> rfl

/-- Frames divide by `bodyAngle - stoprun` alone. -/
theorem calls_divide (s : AppState) (calls : List BlueCall) {divisor : Int}
    (h : .divide divisor ∈ effects s (calls.map .blue)) : divisor = runDivisor s.gFlashData := by
  induction calls generalizing s with
  | nil => exact absurd h List.not_mem_nil
  | cons call later ih =>
    rw [List.map_cons, effects_cons, List.mem_append] at h
    cases call with
    | initBlueStatus blueData =>
      cases h with
      | inl h => cases List.mem_singleton.mp h; rfl
      | inr h => exact ih (step s (.blue (.initBlueStatus blueData))).1 h
    | ansyBlueStatus blueData =>
      cases h with
      | inl h => exact absurd h List.not_mem_nil
      | inr h => exact ih (step s (.blue (.ansyBlueStatus blueData))).1 h

theorem userPwmSetvalue_divide (value : Int) (pwmIndex : Nat) (divisor : Int) :
    .divide divisor ∉ userPwmSetvalue value pwmIndex := by
  unfold userPwmSetvalue
  dsimp only
  split <;> simp

/-- The run stick divides by the maximum of its direction. -/
theorem setRunjoytick_divide (g : StuFlashData) (dire : Byte) (speed divisor : Int) :
    .divide divisor ∈ setRunjoytick g dire speed ↔
      dire = macnForward ∧ divisor = g.qMaxSpeed.toNat ∨
        dire = macnBackup ∧ divisor = g.hMaxSpeed.toNat := by
  have hne : macnForward ≠ macnBackup := by decide
  unfold setRunjoytick
  by_cases hf : dire = macnForward
  · simp [hf, hne, userPwmSetvalue_divide]
  · by_cases hb : dire = macnBackup
    · simp [hb, Ne.symm hne, userPwmSetvalue_divide]
    · rw [if_neg hf, if_neg hb]
      split <;> simp [hf, hb, userPwmSetvalue_divide]

theorem control_divide (s : AppState) (divisor : Int) :
    .divide divisor ∈ (step s .control).2 ↔
      macndire s.body.gBodyExecInfo.run = macnForward ∧
          divisor = s.gFlashData.qMaxSpeed.toNat ∨
        macndire s.body.gBodyExecInfo.run = macnBackup ∧
          divisor = s.gFlashData.hMaxSpeed.toNat := by
  change .divide divisor ∈ setMacbWorkStatus s.gFlashData s.body.gBodyExecInfo ↔ _
  unfold setMacbWorkStatus setRightjoytick setCebodyjoytick
  rw [List.mem_append, List.mem_append, setRunjoytick_divide]
  simp only [userPwmSetvalue_divide, false_or]

/-! ## Frames that use each divisor -/

def zeros : Vector Byte 6 := #v[0, 0, 0, 0, 0, 0]

/-- The run axis at 255, which no `stoprun` exceeds. -/
def leanForward : Vector Byte 6 := #v[0, 0, 0, 255, 0, 0]

/-- The run axis far back. -/
def leanBack : Vector Byte 6 := #v[0, 0, 0x80, 1, 0, 0]

/-- The direction byte of the run word after a frame. -/
theorem macndire_run (m : Mem) (events : List Event) (blueData : Vector Byte 6) :
    let s := reached m events
    macndire (step s (.blue (.ansyBlueStatus blueData))).1.body.gBodyExecInfo.run =
      macndire (runDemand s.gFlashData s.body (runTilt s.body (revData blueData)[1]!)).1 := by
  intro s
  obtain ⟨-, hrun⟩ := ansyBlueStatus_run s.gFlashData s.body blueData
  have hdir := runDemand_direction s.gFlashData s.body (runTilt s.body (revData blueData)[1]!)
  have hspeed := runDemand_isSpeed s.gFlashData s.body (runTilt s.body (revData blueData)[1]!)
  have hfiltered := getClacData_isSpeed (reached_runInv m events).bounded hspeed
  change macndire (ansyBlueStatus s.gFlashData s.body blueData).gBodyExecInfo.run = _
  rw [hrun]
  exact (orShort_runWord hdir hfiltered).dire_eq

theorem runDemand_leanForward (g : StuFlashData) {s : BodyState}
    (h : s.sInitRevData = Vector.replicate 3 0) :
    (runDemand g s (runTilt s (revData leanForward)[1]!)).1 = blueForward := by
  have hlt := g.stoprun.isLt
  have htilt : runTilt s (revData leanForward)[1]! = 255 := by
    unfold runTilt
    rw [h]
    rfl
  rw [htilt, runDemand, if_pos (by omega)]

theorem runDemand_leanBack (g : StuFlashData) {s : BodyState}
    (h : s.sInitRevData = Vector.replicate 3 0) :
    (runDemand g s (runTilt s (revData leanBack)[1]!)).1 = blueBackup := by
  have htilt : runTilt s (revData leanBack)[1]! = -32766 := by
    unfold runTilt
    rw [h]
    rfl
  rw [htilt, runDemand, if_neg (by omega), if_pos (by omega)]

/-! ## Whole sequences -/

/-- Commands, then frames, then a control step. -/
def sequence (cmds : List CmdBuff) (calls : List BlueCall) : List Event :=
  cmds.map Event.command ++ calls.map Event.blue ++ [Event.control]

/-- What a sequence divides by. -/
theorem sequence_divide (m : Mem) (cmds : List CmdBuff) (calls : List BlueCall) (divisor : Int) :
    .divide divisor ∈ effects (boot m) (sequence cmds calls) ↔
      .divide divisor ∈ effects (configured (boot m) cmds) (calls.map .blue) ∨
        .divide divisor ∈
          (step (Mealy.final step (configured (boot m) cmds) (calls.map .blue)) .control).2 := by
  unfold sequence
  rw [effects_append, effects_append, Mealy.final_append, List.mem_append, List.mem_append,
    effects_cons, effects_nil, List.append_nil]
  have hnone := commands_divide (boot m) cmds divisor
  constructor
  · intro h
    cases h with
    | inl h => exact .inl (h.resolve_left hnone)
    | inr h => exact .inr h
  · intro h
    cases h with
    | inl h => exact .inl (.inr h)
    | inr h => exact .inr h

/-- The record keeps every divisor from zero. -/
def Divisible (g : StuFlashData) : Prop :=
  g.stoprun ≠ g.bodyAngle ∧ g.qMaxSpeed ≠ 0 ∧ g.hMaxSpeed ≠ 0

private theorem byte_eq_zero {b : Byte} (h : 0 = (b.toNat : Int)) : b = 0 :=
  BitVec.eq_of_toNat_eq (Int.ofNat.inj h.symm)

/-- With such a record nothing is divided by zero. -/
theorem Divisible.safe {m : Mem} {cmds : List CmdBuff}
    (h : Divisible (configured (boot m) cmds).gFlashData) (calls : List BlueCall) :
    .divide 0 ∉ effects (boot m) (sequence cmds calls) := by
  obtain ⟨hs, hq, hh⟩ := h
  rw [sequence_divide]
  intro hdiv
  cases hdiv with
  | inl hdiv =>
    have hzero := calls_divide _ calls hdiv
    unfold runDivisor at hzero
    exact hs (BitVec.eq_of_toNat_eq (by omega))
  | inr hdiv =>
    rw [control_divide, blue_gFlashData] at hdiv
    cases hdiv with
    | inl hdiv => exact hq (byte_eq_zero hdiv.2)
    | inr hdiv => exact hh (byte_eq_zero hdiv.2)

/-- A control step after one frame, by the direction the frame asks for. -/
theorem frame_control_divide (m : Mem) (cmds : List CmdBuff) (blueData : Vector Byte 6)
    (divisor : Int) :
    let s := configured (boot m) cmds
    let dire := macndire (runDemand s.gFlashData s.body (runTilt s.body (revData blueData)[1]!)).1
    .divide divisor ∈ effects (boot m) (sequence cmds [.ansyBlueStatus blueData]) ↔
      dire = macnForward ∧ divisor = s.gFlashData.qMaxSpeed.toNat ∨
        dire = macnBackup ∧ divisor = s.gFlashData.hMaxSpeed.toNat := by
  intro s dire
  have hdire : macndire (step s (.blue (.ansyBlueStatus blueData))).1.body.gBodyExecInfo.run =
    dire := macndire_run m (cmds.map .command) blueData
  rw [sequence_divide, List.map_cons, List.map_nil, effects_cons, effects_nil, List.append_nil,
    Mealy.final_cons, Mealy.final_nil, control_divide, hdire]
  exact or_iff_right List.not_mem_nil

/-- A record that some sequence of frames does not divide by zero with is good. -/
theorem divisible_of_safe {m : Mem} {cmds : List CmdBuff}
    (h : ∀ calls, .divide 0 ∉ effects (boot m) (sequence cmds calls)) :
    Divisible (configured (boot m) cmds).gFlashData := by
  have hinit : (configured (boot m) cmds).body.sInitRevData = Vector.replicate 3 0 := by
    rw [configured_body]
    rfl
  refine ⟨fun hs => ?_, fun hq => ?_, fun hh => ?_⟩
  · apply h [.initBlueStatus zeros]
    have hdivisor : runDivisor (configured (boot m) cmds).gFlashData = 0 := by
      unfold runDivisor
      rw [hs]
      exact Int.sub_self _
    rw [sequence_divide, List.map_cons, effects_cons]
    refine .inl (List.mem_append_left _ ?_)
    rw [← hdivisor]
    exact List.mem_singleton_self _
  · apply h [.ansyBlueStatus leanForward]
    refine (frame_control_divide m cmds leanForward 0).mpr (.inl ⟨?_, ?_⟩)
    · rw [runDemand_leanForward _ hinit]
      decide
    · rw [hq]
      rfl
  · apply h [.ansyBlueStatus leanBack]
    refine (frame_control_divide m cmds leanBack 0).mpr (.inr ⟨?_, ?_⟩)
    · rw [runDemand_leanBack _ hinit]
      decide
    · rw [hh]
      rfl

/-- **When no sequence of frames divides by zero**, after any commands on any record that
`initFlash` leaves. -/
theorem divisors_nonzero_iff (m : Mem) (cmds : List CmdBuff) :
    (∀ calls, .divide 0 ∉ effects (boot m) (sequence cmds calls)) ↔
      lastLow revCmdTypeStopData (initFlash m).stoprun cmds ≠ (initFlash m).bodyAngle ∧
        lastLow revCmdTypeRunSpeed (initFlash m).qMaxSpeed cmds ≠ 0 ∧
        lastLow revCmdTypeHoutuiInfo (initFlash m).hMaxSpeed cmds ≠ 0 := by
  have hdivisible : Divisible (configured (boot m) cmds).gFlashData ↔
      lastLow revCmdTypeStopData (initFlash m).stoprun cmds ≠ (initFlash m).bodyAngle ∧
        lastLow revCmdTypeRunSpeed (initFlash m).qMaxSpeed cmds ≠ 0 ∧
        lastLow revCmdTypeHoutuiInfo (initFlash m).hMaxSpeed cmds ≠ 0 := by
    unfold Divisible
    rw [configured_stoprun, configured_bodyAngle, configured_qMaxSpeed, configured_hMaxSpeed]
    rfl
  rw [← hdivisible]
  constructor
  · intro h
    exact divisible_of_safe h
  · intro h calls
    exact h.safe calls

/-- `stoprun` set to the default `bodyAngle`, then a calibration. -/
theorem stop_data_divides_by_zero :
    ¬ ∀ (m : Mem) (cmds : List CmdBuff) (calls : List BlueCall),
      .divide 0 ∉ effects (boot m) (sequence cmds calls) := by
  intro h
  exact h erased [#v[1, 3, 0, 2, 0, 20, 0, 0]] [.initBlueStatus zeros] (by decide +kernel)

end ControlRTT.Applications.Divisors

import ControlRTT.Applications.TiltWords

/-! # What the axes are measured against

Each axis should take the difference between its own sample and its own calibration,
both as two's complement numbers. The conversion of ansyBlueData.c is off by one
above `0x8000` and leaves `0x8000` itself positive (`slip`), so the run and right
axes are exact only between numbers of one kind; the ceBody axis takes the
calibration of the third number instead of the first. -/
namespace ControlRTT.Applications.Tilts
open ControlRTT.Lib ControlRTT.Lib.CInt ControlRTT.Lib.NorFlash
open ControlRTT.Applications.Config ControlRTT.Applications.Axes ControlRTT.Applications.Joystick
open ControlRTT.Applications.Control ControlRTT.Applications.TiltWords

/-! ## The conversion -/

/-- The three numbers of a frame in two's complement. -/
def samples (blueData : Vector Byte 6) : Vector Int 3 :=
  #v[signedBytes blueData[0]! blueData[1]!, signedBytes blueData[2]! blueData[3]!,
    signedBytes blueData[4]! blueData[5]!]

/-- By how much the source's conversion exceeds two's complement. -/
def slip (rev : Int) : Int := if rev < 0x8000 then 0 else if rev = 0x8000 then 65536 else 1

theorem signedRev_joinBytes (hi lo : Byte) :
    signedRev (joinBytes hi lo) = signedBytes hi lo + slip (joinBytes hi lo) := by
  have hlt := joinBytes_lt hi lo
  rw [signedBytes_eq]
  unfold signedRev slip
  split <;> split <;> omega

theorem signedRev_revData (blueData : Vector Byte 6) {i : Nat} (hi : i < 3) :
    signedRev (revData blueData)[i]! = (samples blueData)[i]! + slip (revData blueData)[i]! := by
  match i, hi with
  | 0, _ => exact signedRev_joinBytes blueData[0]! blueData[1]!
  | 1, _ => exact signedRev_joinBytes blueData[2]! blueData[3]!
  | 2, _ => exact signedRev_joinBytes blueData[4]! blueData[5]!

/-- What a calibration frame stores for an axis. -/
theorem initRev_getElem (cal : Vector Byte 6) {i : Nat} (hi : i < 3) :
    (initRev cal)[i]! = (samples cal)[i]! + slip (revData cal)[i]! := by
  rw [← signedRev_revData cal hi, initRev, getElem!_pos _ i hi, getElem!_pos _ i hi,
    Vector.getElem_map]

/-! ## The tilts -/

/-- Each tilt is the difference between the axis's own sample and calibration. -/
structure Measured (s : BodyState) (cal blueData : Vector Byte 6) : Prop where
  ceBody : ceBodyTilt s (revData blueData)[0]! = (samples blueData)[0]! - (samples cal)[0]!
  run : runTilt s (revData blueData)[1]! = (samples blueData)[1]! - (samples cal)[1]!
  right : rightTilt s (revData blueData)[2]! = (samples blueData)[2]! - (samples cal)[2]!

/-- A frame identical to the calibration has tilt zero on every axis, and magnitude zero in
the stored right and ceBody words. -/
def Still (s : BodyState) (info : BodyExecInfo) (blueData : Vector Byte 6) : Prop :=
  ceBodyTilt s (revData blueData)[0]! = 0 ∧ runTilt s (revData blueData)[1]! = 0 ∧
    rightTilt s (revData blueData)[2]! = 0 ∧ lowHalf info.right = 0 ∧ lowHalf info.ceBody = 0

/-- The tilts against a calibration, with what the conversion adds to them. -/
theorem tilts_eq {s : BodyState} {cal : Vector Byte 6} (h : s.sInitRevData = initRev cal)
    (blueData : Vector Byte 6) :
    ceBodyTilt s (revData blueData)[0]! = (samples blueData)[0]! + slip (revData blueData)[0]! -
        ((samples cal)[2]! + slip (revData cal)[2]!) ∧
      runTilt s (revData blueData)[1]! = (samples blueData)[1]! + slip (revData blueData)[1]! -
        ((samples cal)[1]! + slip (revData cal)[1]!) ∧
      rightTilt s (revData blueData)[2]! = (samples blueData)[2]! + slip (revData blueData)[2]! -
        ((samples cal)[2]! + slip (revData cal)[2]!) := by
  unfold ceBodyTilt runTilt rightTilt
  refine ⟨?_, ?_, ?_⟩
  · rw [signedRev_revData blueData (i := 0) (by decide), h,
      initRev_getElem cal (i := 2) (by decide)]
  · rw [signedRev_revData blueData (i := 1) (by decide), h,
      initRev_getElem cal (i := 1) (by decide)]
  · rw [signedRev_revData blueData (i := 2) (by decide), h,
      initRev_getElem cal (i := 2) (by decide)]

/-- The word of tilt zero has magnitude zero. -/
theorem lowHalf_tiltWord_zero (up down rest : Byte) :
    lowHalf (tiltWord (directionWord up) (directionWord down) (directionWord rest) 0) = 0 := by
  have hagree := tiltWord_agrees up down rest (d := 0) (by decide)
  have hclean := hagree.clean
  have hk := (direction up down rest 0).isLt
  apply BitVec.eq_of_toNat_eq
  rw [show magnitude 0 = 0 from rfl] at hclean
  rw [lowHalf_toNat, show (0 : BitVec 32).toNat = 0 from rfl]
  omega

private theorem diff_eq_iff {a b c d e : Int} : a + b - (c + d) = a - e ↔ e + b = c + d := by
  omega

private theorem diff_self_iff {a b c d : Int} : a + b - (c + d) = a - c ↔ b = d := by
  omega

/-- The three differences, one by one. -/
theorem measured_iff_slips {s : BodyState} {cal : Vector Byte 6}
    (h : s.sInitRevData = initRev cal) (blueData : Vector Byte 6) :
    Measured s cal blueData ↔
      (samples cal)[0]! + slip (revData blueData)[0]! = (samples cal)[2]! + slip (revData cal)[2]! ∧
        slip (revData blueData)[1]! = slip (revData cal)[1]! ∧
        slip (revData blueData)[2]! = slip (revData cal)[2]! := by
  obtain ⟨hceBody, hrun, hright⟩ := tilts_eq h blueData
  constructor
  · intro hm
    exact ⟨diff_eq_iff.mp (hceBody.symm.trans hm.ceBody),
      diff_self_iff.mp (hrun.symm.trans hm.run), diff_self_iff.mp (hright.symm.trans hm.right)⟩
  · intro ⟨h0, h1, h2⟩
    exact ⟨hceBody.trans (diff_eq_iff.mpr h0), hrun.trans (diff_self_iff.mpr h1),
      hright.trans (diff_self_iff.mpr h2)⟩

/-- Measured against itself, a frame is still. -/
theorem Measured.still {g : StuFlashData} {s : BodyState} {blueData : Vector Byte 6}
    (h : Measured s blueData blueData) :
    Still s (ansyBlueStatus g s blueData).gBodyExecInfo blueData := by
  have h0 := h.ceBody.trans (Int.sub_self _)
  have h1 := h.run.trans (Int.sub_self _)
  have h2 := h.right.trans (Int.sub_self _)
  refine ⟨h0, h1, h2, ?_, ?_⟩
  · rw [ansyBlueStatus_right, h2]
    exact lowHalf_tiltWord_zero ..
  · rw [ansyBlueStatus_ceBody, h0]
    exact lowHalf_tiltWord_zero ..

/-- **When every axis is measured against its own calibration**, at every sensor frame of
every run after a calibration. -/
theorem measured_iff (m : Mem) (events : List Event) (cal blueData : Vector Byte 6)
    (h : lastCalibration events = some cal) :
    let s := reached m events
    let s' := (step s (.blue (.ansyBlueStatus blueData))).1
    Measured s.body cal blueData ∧
        (blueData = cal → Still s.body s'.body.gBodyExecInfo blueData) ↔
      (samples cal)[0]! + slip (revData blueData)[0]! = (samples cal)[2]! + slip (revData cal)[2]! ∧
        slip (revData blueData)[1]! = slip (revData cal)[1]! ∧
        slip (revData blueData)[2]! = slip (revData cal)[2]! := by
  intro s s'
  rw [← measured_iff_slips (reached_sInitRevData m events h) blueData]
  constructor
  · intro hboth
    exact hboth.1
  · intro hm
    refine ⟨hm, fun hsame => ?_⟩
    subst hsame
    exact hm.still

/-- A frame of 10, -200 and -7 against a calibration of -2, -5 and -3. -/
theorem measured_iff_negative :
    let cal : Vector Byte 6 := #v[0xFF, 0xFE, 0xFF, 0xFB, 0xFF, 0xFD]
    let blueData : Vector Byte 6 := #v[0x00, 0x0A, 0xFF, 0x38, 0xFF, 0xF9]
    Measured (reached erased [.blue (.initBlueStatus cal)]).body cal blueData :=
  ((measured_iff erased [.blue (.initBlueStatus #v[0xFF, 0xFE, 0xFF, 0xFB, 0xFF, 0xFD])]
    #v[0xFF, 0xFE, 0xFF, 0xFB, 0xFF, 0xFD] #v[0x00, 0x0A, 0xFF, 0x38, 0xFF, 0xF9] rfl).mpr
      (by decide +kernel)).1

/-- Calibrated with 1 on the first axis, the same frame has ceBody tilt 1. -/
theorem ceBody_mixed_up :
    ¬ ∀ (m : Mem) (events : List Event) (cal blueData : Vector Byte 6),
      lastCalibration events = some cal →
        let s := reached m events
        let s' := (step s (.blue (.ansyBlueStatus blueData))).1
        Measured s.body cal blueData ∧
          (blueData = cal → Still s.body s'.body.gBodyExecInfo blueData) := by
  intro h
  have hm := h erased [.blue (.initBlueStatus #v[0, 1, 0, 0, 0, 0])] #v[0, 1, 0, 0, 0, 0]
    #v[0, 1, 0, 0, 0, 0] rfl
  exact absurd hm.1.ceBody (by decide +kernel)

end ControlRTT.Applications.Tilts

import ControlRTT.Applications.Control

/-! # The words of the right and ceBody axes

Encoder and decoder live in different files: `getRightData` and `getCeBodyData` put
a direction and `4*|d| - 20` into a word, `setMacbWorkStatus` takes a byte of each
half. The magnitude fits a byte up to a tilt of 68 (`tiltWord_agrees_iff`). -/
namespace ControlRTT.Applications.TiltWords
open ControlRTT.Lib ControlRTT.Lib.CInt ControlRTT.Lib.NorFlash
open ControlRTT.Applications.BlueFrame (BlueCall)
open ControlRTT.Applications.Config ControlRTT.Applications.Axes ControlRTT.Applications.Joystick
open ControlRTT.Applications.Control

/-! ## What is meant -/

/-- The magnitude of a tilt: zero in the dead zone. -/
def magnitude (d : Int) : Int := if d ≥ 5 ∨ d < -5 then 4 * d.natAbs - 20 else 0

/-- The direction of a tilt. -/
def direction (up down rest : Byte) (d : Int) : Byte :=
  if d ≥ 5 then up else if d < -5 then down else rest

/-- A direction constant at its place in the word. -/
def directionWord (dire : Byte) : BitVec 32 := BitVec.ofNat 32 (65536 * dire.toNat)

/-- The word means this direction and magnitude: the decoded bytes are these, and the word
holds nothing else, neither a wrapped magnitude nor sign bits in the direction half. -/
structure Agrees (w : BitVec 32) (dire : Byte) (mag : Int) : Prop where
  decodedDire : macndire w = dire
  decodedSpeed : ((macnSpeed w).toNat : Int) = mag
  clean : (w.toNat : Int) = 65536 * dire.toNat + mag

/-! ## Encoding and decoding -/

/-- A magnitude of one byte is decoded as it was encoded. -/
theorem orShort_agrees (dire : Byte) {mag : Int} (lo : 0 ≤ mag) (hi : mag < 256) :
    Agrees (orShort (directionWord dire) (toShort mag)) dire mag := by
  have hk := dire.isLt
  have hw := orShort_of_nonneg (k := dire.toNat) (by omega) lo (by omega)
  rw [toShort_of_range (by omega) (by omega)]
  unfold directionWord
  constructor
  · apply BitVec.eq_of_toNat_eq
    unfold macndire
    rw [highHalf_byte, hw]
    omega
  · unfold macnSpeed
    rw [lowHalf_byte, hw]
    omega
  · rw [hw]
    omega

/-- The word of a small tilt. -/
theorem tiltWord_agrees (up down rest : Byte) {d : Int} (h : d.natAbs ≤ 68) :
    Agrees (tiltWord (directionWord up) (directionWord down) (directionWord rest) d)
      (direction up down rest d) (magnitude d) := by
  unfold tiltWord direction magnitude
  by_cases hup : d ≥ 5
  · rw [if_pos hup, if_pos hup, if_pos (.inl hup),
      show 4 * (d.natAbs : Int) - 20 = 4 * d - 20 by omega]
    exact orShort_agrees up (by omega) (by omega)
  · rw [if_neg hup, if_neg hup]
    by_cases hdown : d < -5
    · rw [if_pos hdown, if_pos hdown, if_pos (.inr hdown),
        show 4 * (d.natAbs : Int) - 20 = 4 * (d * -1) - 20 by omega]
      exact orShort_agrees down (by omega) (by omega)
    · rw [if_neg hdown, if_neg hdown, if_neg (by omega)]
      exact orShort_agrees rest (Int.le_refl 0) (by decide)

/-- A magnitude byte cannot hold the magnitude of a large tilt. -/
theorem Agrees.natAbs_le {w : BitVec 32} {dire : Byte} {d : Int}
    (h : Agrees w dire (magnitude d)) : d.natAbs ≤ 68 := by
  have hbyte := (macnSpeed w).isLt
  have hspeed := h.decodedSpeed
  unfold magnitude at hspeed
  split at hspeed <;> omega

/-- **Encoder and decoder agree on a tilt exactly up to 68.** -/
theorem tiltWord_agrees_iff (up down rest : Byte) (d : Int) :
    Agrees (tiltWord (directionWord up) (directionWord down) (directionWord rest) d)
      (direction up down rest d) (magnitude d) ↔ d.natAbs ≤ 68 :=
  ⟨fun h => h.natAbs_le, fun h => tiltWord_agrees up down rest h⟩

/-! ## The two axes -/

/-- The words a sensor frame stores for the two axes. -/
theorem ansyBlueStatus_right (g : StuFlashData) (s : BodyState) (blueData : Vector Byte 6) :
    (ansyBlueStatus g s blueData).gBodyExecInfo.right =
      tiltWord (directionWord macnRight) (directionWord macnLeft) (directionWord macnRight)
        (rightTilt s (revData blueData)[2]!) := rfl

theorem ansyBlueStatus_ceBody (g : StuFlashData) (s : BodyState) (blueData : Vector Byte 6) :
    (ansyBlueStatus g s blueData).gBodyExecInfo.ceBody =
      tiltWord (directionWord macnCeleft) (directionWord macnCeright) (directionWord macnCeright)
        (ceBodyTilt s (revData blueData)[0]!) := rfl

/-- Both words mean the direction and magnitude of the tilts they were computed from. -/
def BothAgree (info : BodyExecInfo) (rightTilt ceBodyTilt : Int) : Prop :=
  Agrees info.right (direction macnRight macnLeft macnRight rightTilt) (magnitude rightTilt) ∧
    Agrees info.ceBody (direction macnCeleft macnCeright macnCeright ceBodyTilt)
      (magnitude ceBodyTilt)

/-- **When the decoded words are the encoded ones**, at every sensor frame of every run: if
neither tilt is beyond 68. -/
theorem words_agree_iff (m : Mem) (events : List Event) (blueData : Vector Byte 6) :
    let s := reached m events
    let s' := (step s (.blue (.ansyBlueStatus blueData))).1
    BothAgree s'.body.gBodyExecInfo (rightTilt s.body (revData blueData)[2]!)
        (ceBodyTilt s.body (revData blueData)[0]!) ↔
      (signedRev (revData blueData)[2]! - s.body.sInitRevData[2]!).natAbs ≤ 68 ∧
        (signedRev (revData blueData)[0]! - s.body.sInitRevData[2]!).natAbs ≤ 68 := by
  intro s s'
  have hright : s'.body.gBodyExecInfo.right = _ :=
    ansyBlueStatus_right s.gFlashData s.body blueData
  have hceBody : s'.body.gBodyExecInfo.ceBody = _ :=
    ansyBlueStatus_ceBody s.gFlashData s.body blueData
  unfold BothAgree
  rw [hright, hceBody, tiltWord_agrees_iff, tiltWord_agrees_iff]
  rfl

/-- A right tilt of 69 against a calibration of zeros is decoded with magnitude 0. -/
theorem tilt_of_69_is_lost :
    ¬ ∀ (m : Mem) (events : List Event) (cal blueData : Vector Byte 6),
      lastCalibration events = some cal →
        let s := reached m events
        let s' := (step s (.blue (.ansyBlueStatus blueData))).1
        BothAgree s'.body.gBodyExecInfo (rightTilt s.body (revData blueData)[2]!)
          (ceBodyTilt s.body (revData blueData)[0]!) := by
  intro h
  have hagree := h erased [.blue (.initBlueStatus #v[0, 0, 0, 0, 0, 0])] #v[0, 0, 0, 0, 0, 0]
    #v[0, 0, 0, 0, 0, 69] rfl
  have htilt := hagree.1.natAbs_le
  exact absurd htilt (by decide +kernel)

end ControlRTT.Applications.TiltWords

import ControlRTT.Applications.BlueFrame
import ControlRTT.Applications.Config

/-! # From sensor frames to joystick words

The handlers of ansyBlueData.c. A calibration frame stores one number for each
axis and recomputes the run curve; a sensor frame is turned into three words, each
a direction in the high half and a magnitude in the low half. The tilts are
differences of 16-bit numbers and the curve's values stay below `2^24`, so the
source's `float`s hold them exactly and they are integers here. A division by zero
gives zero, as the processor's does. -/
namespace ControlRTT.Applications.Axes
open ControlRTT.Lib.CInt ControlRTT.Applications.Config

/-! ## Constants of bluetooth.h -/

def blueForward : BitVec 32 := 0x010000#32
def blueBackup : BitVec 32 := 0x020000#32
def blueLeft : BitVec 32 := 0x040000#32
def blueRight : BitVec 32 := 0x080000#32
def blueCeright : BitVec 32 := 0x100000#32
def blueCeleft : BitVec 32 := 0x110000#32
def blueStop : BitVec 32 := 0x00000#32

def calcDataCount : Nat := 50

/-! ## The state -/

/-- The static variables of `getClacData`. -/
structure ClacFilter where
  sData : Vector Int calcDataCount := Vector.replicate calcDataCount 0
  sIndex : Fin calcDataCount := ⟨0, by decide⟩
  count : Nat := 0
  deriving DecidableEq, Repr

/-- `stuBodyExecInfo`. -/
structure BodyExecInfo where
  run : BitVec 32 := 0
  right : BitVec 32 := 0
  ceBody : BitVec 32 := 0
  deriving DecidableEq, Repr

/-- The variables of ansyBlueData.c. -/
structure BodyState where
  sInitRevData : Vector Int 3 := Vector.replicate 3 0
  runA : Int := 4
  runB : Int := -20
  clac : ClacFilter := {}
  gBodyExecInfo : BodyExecInfo := {}
  deriving DecidableEq, Repr

/-- The conversion to a signed number that every axis makes. -/
def signedRev (revData : Int) : Int := if revData > 0x8000 then revData - 65535 else revData

/-- The three numbers of a frame, high byte first. -/
def revData (blueData : Vector Byte 6) : Vector Int 3 :=
  #v[(joinBytes blueData[0]! blueData[1]! : Int), joinBytes blueData[2]! blueData[3]!,
    joinBytes blueData[4]! blueData[5]!]

/-! ## Calibration -/

/-- The divisor of `getRunFuncData`. -/
def runDivisor (g : StuFlashData) : Int := g.bodyAngle.toNat - g.stoprun.toNat

def getRunFuncData (g : StuFlashData) (s : BodyState) : BodyState × List Effect :=
  let runA := (g.qMaxSpeed.toNat : Int).tdiv (runDivisor g)
  ({ s with runA := runA, runB := -1 * g.stoprun.toNat * runA }, [.divide (runDivisor g)])

def initBlueStatus (g : StuFlashData) (s : BodyState) (blueData : Vector Byte 6) :
    BodyState × List Effect :=
  getRunFuncData g { s with sInitRevData := (revData blueData).map signedRev }

/-! ## The averaging filter -/

/-- The filter with one more sample stored. -/
def ClacFilter.push (f : ClacFilter) (tData : Int) : ClacFilter where
  sData := f.sData.set f.sIndex tData
  sIndex := ⟨(f.sIndex + 1) % calcDataCount, Nat.mod_lt _ (by decide)⟩
  count := f.count + 1

def ClacFilter.sum (f : ClacFilter) : Int := f.sData.toList.sum

/-- `getClacData`: the sample, held to between 4/5 and 6/5 of the average once fifty
samples have come. -/
def getClacData (f : ClacFilter) (tData : Int) : Int × ClacFilter :=
  let f := f.push tData
  if f.count < calcDataCount then (tData, f)
  else
    let temp := toShort (f.sum.tdiv calcDataCount)
    (if 5 * tData > 6 * temp then toShort ((6 * temp).tdiv 5)
      else if 5 * tData < 4 * temp then toShort ((4 * temp).tdiv 5)
      else tData, f)

/-! ## The run axis -/

/-- `diffSpeed` of `getRunData`. -/
def runTilt (s : BodyState) (rev : Int) : Int := signedRev rev - s.sInitRevData[1]!

/-- The two lines that bring a speed between zero and the maximum. -/
def limit (max data : Int) : Int :=
  let data := if data > max then max else data
  if data ≤ 0 then 0 else data

/-- Direction and speed of `getRunData` before the filter. -/
def runDemand (g : StuFlashData) (s : BodyState) (diffSpeed : Int) : BitVec 32 × Int :=
  if diffSpeed ≥ g.stoprun.toNat then
    (blueForward, limit g.qMaxSpeed.toNat (toShort (s.runA * diffSpeed + s.runB)))
  else if diffSpeed < g.stoptui.toNat then
    let diffSpeed := if diffSpeed < 0 then diffSpeed * -1 else diffSpeed
    (blueBackup, limit g.hMaxSpeed.toNat (toShort (3 * diffSpeed)))
  else (blueStop, 0)

def getRunData (g : StuFlashData) (s : BodyState) (rev : Int) : BodyState :=
  let demand := runDemand g s (runTilt s rev)
  let r := getClacData s.clac demand.2
  { s with
    clac := r.2
    gBodyExecInfo := { s.gBodyExecInfo with run := orShort demand.1 r.1 } }

/-! ## The right and ceBody axes -/

/-- The word of a tilt: one direction from 5 on, one below -5, and one with magnitude zero
between them. -/
def tiltWord (up down rest : BitVec 32) (diffSpeed : Int) : BitVec 32 :=
  if diffSpeed ≥ 5 then orShort up (toShort (4 * diffSpeed - 20))
  else if diffSpeed < -5 then orShort down (toShort (4 * (diffSpeed * -1) - 20))
  else orShort rest 0

/-- `diffSpeed` of `getRightData`. -/
def rightTilt (s : BodyState) (rev : Int) : Int := signedRev rev - s.sInitRevData[2]!

def getRightData (s : BodyState) (rev : Int) : BodyState :=
  { s with gBodyExecInfo := { s.gBodyExecInfo with
      right := tiltWord blueRight blueLeft blueRight (rightTilt s rev) } }

/-- `diffSpeed` of `getCeBodyData`. The calibration it takes is that of the third axis. -/
def ceBodyTilt (s : BodyState) (rev : Int) : Int := signedRev rev - s.sInitRevData[2]!

def getCeBodyData (s : BodyState) (rev : Int) : BodyState :=
  { s with gBodyExecInfo := { s.gBodyExecInfo with
      ceBody := tiltWord blueCeleft blueCeright blueCeright (ceBodyTilt s rev) } }

def ansyBlueStatus (g : StuFlashData) (s : BodyState) (blueData : Vector Byte 6) : BodyState :=
  let rev := revData blueData
  let s := getCeBodyData s rev[0]!
  let s := getRunData g s rev[1]!
  getRightData s rev[2]!

end ControlRTT.Applications.Axes

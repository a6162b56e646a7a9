import ControlRTT.Applications.Flash

/-! # The configuration record

`stuFlashData` (app.h), how `initFlash` (main.c) fills it from the flash, and how
the debug port changes it (`getCmdData`, debugUsart.c). The port's `char` is
unsigned. What a routine does besides changing its state is a list of `Effect`s. -/
namespace ControlRTT.Applications.Config
open ControlRTT.Lib.CInt ControlRTT.Lib.NorFlash ControlRTT.Applications.Flash

/-! ## The record -/

structure StuFlashData where
  blueDevice : Vector Byte 20
  bodyAngle : Byte
  qMaxSpeed : Byte
  hMaxSpeed : Byte
  runmode : Byte
  stoptui : Byte
  stoprun : Byte
  houJiaoDu : Byte
  deriving DecidableEq, Repr

/-- `sizeof(stuFlashData)`. -/
def sizeofFlashData : Nat := 27

/-- The record as its bytes lie in memory. -/
def StuFlashData.ofBytes (b : Nat → Byte) : StuFlashData where
  blueDevice := Vector.ofFn fun i => b i
  bodyAngle := b 20
  qMaxSpeed := b 21
  hMaxSpeed := b 22
  runmode := b 23
  stoptui := b 24
  stoprun := b 25
  houJiaoDu := b 26

/-- `"6AC2D2F21942"`, filled up with zeros. -/
def defaultBlueDevice : Vector Byte 20 :=
  #v[0x36, 0x41, 0x43, 0x32, 0x44, 0x32, 0x46, 0x32, 0x31, 0x39, 0x34, 0x32, 0, 0, 0, 0, 0, 0, 0, 0]

/-- `initFlash`: a record whose `qMaxSpeed` was never set gets defaults. The source sets
`stoprun` twice and leaves `stoptui` as it was read. -/
def initFlash (m : Mem) : StuFlashData :=
  let g := StuFlashData.ofBytes (stmflashReadStruct m flashDataAddress sizeofFlashData)
  if g.qMaxSpeed = 0xFF ∨ g.qMaxSpeed = 0 then
    { g with
      qMaxSpeed := 60
      bodyAngle := 20
      hMaxSpeed := 30
      blueDevice := defaultBlueDevice
      runmode := 1
      stoprun := 5
      houJiaoDu := 20 }
  else g

/-! ## Effects -/

inductive Effect where
  /-- Bytes written to the debug port. -/
  | toPc (sbuff : List Byte)
  /-- `saveFalshData`, with the record it saves. -/
  | saveFlashData (g : StuFlashData)
  /-- An integer division by `divisor` is executed. -/
  | divide (divisor : Int)
  /-- A timer channel gets a compare value, for the value a joystick routine passed on. -/
  | pwm (channel : Nat) (value : Int) (pulse : Nat)
  deriving DecidableEq, Repr

/-! ## Commands of the debug port -/

def sendDeviceId : Byte := 0x01
def sendDataMode : Byte := 0x03

def revCmdTypeRunMode : Nat := 0x01
def revCmdTypeStopData : Nat := 0x02
def revCmdTypeRunSpeed : Nat := 0x03
def revCmdTypeHoutuiInfo : Nat := 0x04
def revCmdTypeRightInfo : Nat := 0x05
def revCmdTypeZhuanInfo : Nat := 0x06
def revCmdTypeGetInfo : Nat := 0x07

/-- The eight bytes `debugAnsy` collects for a command. -/
abbrev CmdBuff := Vector Byte 8

/-- The command code. -/
def cmdOf (buff : CmdBuff) : Nat := joinBytes buff[2]! buff[3]!

def sendAllDataToPc (g : StuFlashData) : Effect :=
  .toPc [sendDeviceId, sendDataMode, 0x04 * 2, 0x00, g.runmode, g.stoptui, g.stoprun, 0x00,
    g.qMaxSpeed, g.houJiaoDu, g.hMaxSpeed, 0x00, 0x00]

def sendSignalDataToPc (data1 data2 : Byte) : Effect :=
  .toPc [sendDeviceId, sendDataMode, 0x02, data1, data2, 0, 0]

/-- The record after a command that sets part of it, answered and saved. -/
def answered (g : StuFlashData) : StuFlashData × List Effect :=
  (g, [sendSignalDataToPc 0 0, .saveFlashData g])

/-- `getCmdData`. The values are stored as they come. -/
def getCmdData (g : StuFlashData) (buff : CmdBuff) : StuFlashData × List Effect :=
  let cmd := cmdOf buff
  if cmd = revCmdTypeRunMode then answered { g with runmode := buff[5]! }
  else if cmd = revCmdTypeStopData then answered { g with stoptui := buff[4]!, stoprun := buff[5]! }
  else if cmd = revCmdTypeRunSpeed then answered { g with qMaxSpeed := buff[5]! }
  else if cmd = revCmdTypeHoutuiInfo then
    answered { g with houJiaoDu := buff[4]!, hMaxSpeed := buff[5]! }
  else if cmd = revCmdTypeRightInfo then answered g
  else if cmd = revCmdTypeZhuanInfo then answered g
  else if cmd = revCmdTypeGetInfo then (g, [sendAllDataToPc g])
  else (g, [])

/-! ## What a command changes -/

theorem getCmdData_bodyAngle (g : StuFlashData) (buff : CmdBuff) :
    (getCmdData g buff).1.bodyAngle = g.bodyAngle := by
  unfold getCmdData answered
  grind

theorem getCmdData_stoprun (g : StuFlashData) (buff : CmdBuff) :
    (getCmdData g buff).1.stoprun =
      if cmdOf buff = revCmdTypeStopData then buff[5]! else g.stoprun := by
  unfold getCmdData answered revCmdTypeStopData revCmdTypeRunMode
  grind

theorem getCmdData_qMaxSpeed (g : StuFlashData) (buff : CmdBuff) :
    (getCmdData g buff).1.qMaxSpeed =
      if cmdOf buff = revCmdTypeRunSpeed then buff[5]! else g.qMaxSpeed := by
  unfold getCmdData answered revCmdTypeRunSpeed revCmdTypeStopData revCmdTypeRunMode
  grind

theorem getCmdData_hMaxSpeed (g : StuFlashData) (buff : CmdBuff) :
    (getCmdData g buff).1.hMaxSpeed =
      if cmdOf buff = revCmdTypeHoutuiInfo then buff[5]! else g.hMaxSpeed := by
  unfold getCmdData answered revCmdTypeHoutuiInfo revCmdTypeRunSpeed revCmdTypeStopData
    revCmdTypeRunMode
  grind

/-- A command never divides. -/
theorem getCmdData_divide (g : StuFlashData) (buff : CmdBuff) (divisor : Int) :
    .divide divisor ∉ (getCmdData g buff).2 := by
  unfold getCmdData answered sendAllDataToPc sendSignalDataToPc
  grind

end ControlRTT.Applications.Config

import ControlRTT.Applications.Axes

/-! # From joystick words to timer compare values

`setMacbWorkStatus` (machControl.c) takes a direction byte and a magnitude byte
from each word and turns them into a joystick value, and `user_pwm_setvalue`
(HAL_pwm.c) programs a timer channel. -/
namespace ControlRTT.Applications.Joystick
open ControlRTT.Lib.CInt ControlRTT.Applications.Config ControlRTT.Applications.Axes

/-! ## Constants of machControl.h and HAL_pwm.h -/

def macnForward : Byte := 0x01
def macnBackup : Byte := 0x02
def macnLeft : Byte := 0x04
def macnRight : Byte := 0x08
def macnStop : Byte := 0x00
def macnCeright : Byte := 0x10
def macnCeleft : Byte := 0x11

def lstickH : Nat := 1
def lstickV : Nat := 2
def rstickH : Nat := 3
def rstickV : Nat := 4

/-- `htim3.Init.Period`. -/
def timPeriod : Nat := 100

/-! ## The timer -/

/-- `_value`, the joystick value mapped to the timer period. -/
def mappedDuty (value : Nat) : Nat := value * 100 / 4096

/-- The timer channel of a stick. -/
def pwmChannel (pwmIndex : Nat) : Option Nat :=
  if pwmIndex = lstickH then some 1
  else if pwmIndex = lstickV then some 2
  else if pwmIndex = rstickH then some 3
  else if pwmIndex = rstickV then some 4
  else none

/-- `user_pwm_setvalue`, called with an `int`: the argument becomes a `uint16_t`. The
mapped duty is computed, but the compare value is the argument itself. -/
def userPwmSetvalue (speed : Int) (pwmIndex : Nat) : List Effect :=
  let value := (speed % 65536).toNat
  match pwmChannel pwmIndex with
  | some channel => [.pwm channel speed value]
  | none => []

/-! ## The sticks -/

/-- The bytes `setMacbWorkStatus` takes from a word. -/
def macndire (w : BitVec 32) : Byte := (highHalf w).setWidth 8
def macnSpeed (w : BitVec 32) : Byte := (lowHalf w).setWidth 8

def setRunjoytick (g : StuFlashData) (machdire : Byte) (speed : Int) : List Effect :=
  if machdire = macnForward then
    .divide g.qMaxSpeed.toNat ::
      userPwmSetvalue (2048 + Int.tdiv 2048 g.qMaxSpeed.toNat * speed - 1) lstickV
  else if machdire = macnBackup then
    .divide g.hMaxSpeed.toNat ::
      userPwmSetvalue (2048 - Int.tdiv 2048 g.hMaxSpeed.toNat * speed) lstickV
  else if machdire = macnStop then userPwmSetvalue 2048 lstickV
  else userPwmSetvalue speed lstickV

/-- The horizontal stick: `2048 / 60` a step, up for one direction, down for the other. -/
def horizontal (up down machdire : Byte) (speed : Int) : Int :=
  if machdire = up then 2048 + Int.tdiv 2048 60 * speed - 1
  else if machdire = down then 2048 - Int.tdiv 2048 60 * speed
  else speed

def setRightjoytick (machdire : Byte) (speed : Int) : List Effect :=
  userPwmSetvalue (horizontal macnRight macnLeft machdire speed) lstickH

def setCebodyjoytick (machdire : Byte) (speed : Int) : List Effect :=
  userPwmSetvalue (horizontal macnCeright macnCeleft machdire speed) lstickH

def setMacbWorkStatus (g : StuFlashData) (status : BodyExecInfo) : List Effect :=
  setRightjoytick (macndire status.right) (macnSpeed status.right).toNat ++
    setCebodyjoytick (macndire status.ceBody) (macnSpeed status.ceBody).toNat ++
    setRunjoytick g (macndire status.run) (macnSpeed status.run).toNat

/-- `getGatcherInfo` (blueApp.c): direction and speed of the run word. -/
def getGatcherInfo (status : BodyExecInfo) : Int × Int :=
  ((highHalf status.run).toInt, (lowHalf status.run).toInt)

end ControlRTT.Applications.Joystick

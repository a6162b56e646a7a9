import ControlRTT.Lib.Mealy
import ControlRTT.Applications.Joystick

/-! # The control program

Four things happen once the record is loaded: the bluetooth parser calls one of
its two handlers, a debug command arrives, and the control step hands the three
words to the sticks. Each runs to its end, so a run of the program is a list of
them, in any order. -/
namespace ControlRTT.Applications.Control
open ControlRTT.Lib ControlRTT.Lib.CInt ControlRTT.Lib.NorFlash
open ControlRTT.Applications.BlueFrame (BlueCall)
open ControlRTT.Applications.Config ControlRTT.Applications.Axes ControlRTT.Applications.Joystick

structure AppState where
  gFlashData : StuFlashData
  body : BodyState := {}
  deriving DecidableEq, Repr

inductive Event where
  | blue (call : BlueCall)
  | command (buff : CmdBuff)
  | control
  deriving DecidableEq, Repr

/-- The state after `initFlash`. -/
def boot (m : Mem) : AppState := { gFlashData := initFlash m }

def step (s : AppState) : Event → AppState × List Effect
  | .blue (.initBlueStatus blueData) =>
    let r := initBlueStatus s.gFlashData s.body blueData
    ({ s with body := r.1 }, r.2)
  | .blue (.ansyBlueStatus blueData) =>
    ({ s with body := ansyBlueStatus s.gFlashData s.body blueData }, [])
  | .command buff =>
    let r := getCmdData s.gFlashData buff
    ({ s with gFlashData := r.1 }, r.2)
  | .control => (s, setMacbWorkStatus s.gFlashData s.body.gBodyExecInfo)

/-- The state a list of events leads to, from power-on with `m` in the flash. -/
def reached (m : Mem) (events : List Event) : AppState := Mealy.final step (boot m) events

/-- Everything done on the way. -/
def effects (s : AppState) (events : List Event) : List Effect :=
  (Mealy.outputs step s events).flatten

@[simp] theorem effects_nil (s : AppState) : effects s [] = [] := rfl

@[simp] theorem effects_cons (s : AppState) (e : Event) (events : List Event) :
    effects s (e :: events) = (step s e).2 ++ effects (step s e).1 events := rfl

theorem effects_append (s : AppState) (xs ys : List Event) :
    effects s (xs ++ ys) = effects s xs ++ effects (Mealy.final step s xs) ys := by
  unfold effects
  rw [Mealy.outputs_append, List.flatten_append]

/-! ## The calibration in effect -/

/-- The frame of a calibration event. -/
def calibrationOf : Event → Option (Vector Byte 6)
  | .blue (.initBlueStatus blueData) => some blueData
  | _ => none

/-- The last calibration frame of a run. -/
def lastCalibration : List Event → Option (Vector Byte 6)
  | [] => none
  | e :: later => (lastCalibration later).or (calibrationOf e)

/-- What a calibration frame stores. -/
def initRev (blueData : Vector Byte 6) : Vector Int 3 := (revData blueData).map signedRev

/-- Only a calibration frame changes what the axes are measured against. -/
theorem step_sInitRevData (s : AppState) (e : Event) :
    (step s e).1.body.sInitRevData =
      ((calibrationOf e).map initRev).getD s.body.sInitRevData := by
  cases e with
  | blue call => cases call <;> rfl
  | command buff => rfl
  | control => rfl

theorem final_sInitRevData (s : AppState) (events : List Event) :
    (Mealy.final step s events).body.sInitRevData =
      ((lastCalibration events).map initRev).getD s.body.sInitRevData := by
  induction events generalizing s with
  | nil => rfl
  | cons e later ih =>
    rw [Mealy.final_cons, ih, step_sInitRevData, lastCalibration]
    cases lastCalibration later with
    | none => rfl
    | some blueData => rfl

/-- **The axes are measured against the last calibration frame.** -/
theorem reached_sInitRevData (m : Mem) (events : List Event) {blueData : Vector Byte 6}
    (h : lastCalibration events = some blueData) :
    (reached m events).body.sInitRevData = initRev blueData := by
  unfold reached
  rw [final_sInitRevData, h]
  rfl

end ControlRTT.Applications.Control

import ControlRTT.Lib.Mealy
import ControlRTT.Lib.CInt

/-! # Bluetooth frames

`input_blueTooth` (ansyBlueData.c) takes one byte a call. Its states are named
by the frame constants themselves. The checksum state compares the counter with
two but does not advance it, so a parser that has read six data bytes stays
there (`final_crc`): from power-on no handler is ever called (`calls_powerOn`),
and the first frame is the last one whose bytes are looked at. -/
namespace ControlRTT.Applications.BlueFrame
open ControlRTT.Lib ControlRTT.Lib.CInt

/-! ## Constants of bluetooth.h -/

def blueHead : Byte := 0x55
def blueFuncode : Byte := 0x03
def blueLen : Byte := 0x06
def blueData : Byte := 0xA5
def blueCrc : Byte := 0x04
def blueTitle : Byte := 0xCC
def blueInitfuncode : Byte := 0x06

/-! ## The parser -/

/-- The static variables of `input_blueTooth`, with their initializers. -/
structure BlueParser where
  blueFlag : Byte := blueHead
  blueStatus : Vector Byte 6 := Vector.replicate 6 0
  revCount : Nat := 0
  funCode : Nat := 0
  deriving DecidableEq, Repr

/-- The two handlers, with the data bytes they are called on. -/
inductive BlueCall where
  | initBlueStatus (blueData : Vector Byte 6)
  | ansyBlueStatus (blueData : Vector Byte 6)
  deriving DecidableEq, Repr

def powerOn : BlueParser := {}

/-- One received byte, and the handler called on it if one is. -/
def inputBlueTooth (p : BlueParser) (ch : Byte) : BlueParser × Option BlueCall :=
  if p.blueFlag = blueHead then
    (if ch = blueHead then { p with blueFlag := blueFuncode } else p, none)
  else if p.blueFlag = blueFuncode then
    ({ p with
        blueFlag := if ch = blueFuncode ∨ ch = blueInitfuncode then blueLen else blueHead
        funCode := ch.toNat }, none)
  else if p.blueFlag = blueLen then
    ({ p with blueFlag := if ch = blueLen then blueData else blueHead }, none)
  else if p.blueFlag = blueData then
    let p := { p with
      blueStatus := p.blueStatus.setIfInBounds p.revCount ch
      revCount := p.revCount + 1 }
    (if p.revCount = blueLen.toNat then { p with blueFlag := blueCrc, revCount := 0 } else p, none)
  else if p.blueFlag = blueCrc then
    -- the line that stored the byte and advanced `revCount` is commented out in the source
    (if p.revCount = 2 then { p with blueFlag := blueTitle, revCount := 0 } else p, none)
  else if p.blueFlag = blueTitle then
    ({ p with blueFlag := blueHead },
      if ch = blueTitle then
        some (if blueInitfuncode.toNat = p.funCode then .initBlueStatus p.blueStatus
          else .ansyBlueStatus p.blueStatus)
      else none)
  else (p, none)

/-- The handlers called on a stream, in order. -/
def calls (p : BlueParser) (bytes : List Byte) : List BlueCall :=
  (Mealy.outputs inputBlueTooth p bytes).filterMap id

/-! ## Frames -/

/-- The bytes of a frame that are free: a known function code, data and checksum. -/
structure Frame where
  funCode : Byte
  data : Vector Byte 6
  crc : Vector Byte 2
  known : funCode = blueFuncode ∨ funCode = blueInitfuncode
  deriving DecidableEq, Repr

namespace Frame

def payload (f : Frame) : List Byte :=
  [f.data[0]!, f.data[1]!, f.data[2]!, f.data[3]!, f.data[4]!, f.data[5]!]

/-- The twelve bytes on the wire. -/
def bytes (f : Frame) : List Byte :=
  [blueHead, f.funCode, blueLen] ++ f.payload ++ [f.crc[0]!, f.crc[1]!, blueTitle]

/-- The handler a frame is for. -/
def call (f : Frame) : BlueCall :=
  if f.funCode = blueInitfuncode then .initBlueStatus f.data else .ansyBlueStatus f.data

end Frame

/-- The frame's handler is called once, on the frame's data, and the parser is
back in its header state. -/
structure Handles (p : BlueParser) (f : Frame) : Prop where
  called : calls p f.bytes = [f.call]
  hunts : (Mealy.final inputBlueTooth p f.bytes).blueFlag = blueHead

/-- Every frame of the list is handled, each from the state the ones before it leave. -/
def HandlesAll (p : BlueParser) : List Frame → Prop
  | [] => True
  | f :: fs => Handles p f ∧ HandlesAll (Mealy.final inputBlueTooth p f.bytes) fs

/-! ## Why the tail is never reached -/

/-- What every byte keeps from power-on on: the tail state is not entered, and
the checksum state is only seen with the counter at zero. -/
structure BeforeTail (p : BlueParser) : Prop where
  tail : p.blueFlag ≠ blueTitle
  count : p.blueFlag = blueCrc → p.revCount = 0

theorem beforeTail_powerOn : BeforeTail powerOn := ⟨by decide, by decide⟩

theorem BeforeTail.of_flag {p : BlueParser} (flag : Byte) (hp : p.blueFlag = flag)
    (h : flag ≠ blueTitle ∧ flag ≠ blueCrc) : BeforeTail p :=
  ⟨hp ▸ h.1, fun hc => absurd (hp.symm.trans hc) h.2⟩

/-- A parser before the tail calls no handler and stays before the tail. -/
theorem inputBlueTooth_beforeTail {p : BlueParser} (h : BeforeTail p) (ch : Byte) :
    (inputBlueTooth p ch).2 = none ∧ BeforeTail (inputBlueTooth p ch).1 := by
  unfold inputBlueTooth
  split
  case isTrue =>
    refine ⟨rfl, ?_⟩
    split
    · exact .of_flag blueFuncode rfl (by decide)
    · exact h
  split
  case isTrue =>
    refine ⟨rfl, ?_⟩
    split
    · exact .of_flag blueLen rfl (by decide)
    · exact .of_flag blueHead rfl (by decide)
  split
  case isTrue =>
    refine ⟨rfl, ?_⟩
    split
    · exact .of_flag blueData rfl (by decide)
    · exact .of_flag blueHead rfl (by decide)
  split
  case isTrue hdata =>
    refine ⟨rfl, ?_⟩
    dsimp only
    split
    · exact ⟨show blueCrc ≠ blueTitle by decide, fun _ => rfl⟩
    · exact .of_flag blueData hdata (by decide)
  split
  case isTrue hcrc =>
    -- the counter is zero here, so the move to the tail state is not made
    rw [if_neg (by rw [h.count hcrc]; decide)]
    exact ⟨rfl, h⟩
  split
  case isTrue htail => exact absurd htail h.tail
  exact ⟨rfl, h⟩

/-- **From power-on no stream of bytes calls a handler.** -/
theorem calls_powerOn (bytes : List Byte) : calls powerOn bytes = [] := by
  have hnone := Mealy.outputs_constant inputBlueTooth (I := BeforeTail)
    (fun _ ch h => inputBlueTooth_beforeTail h ch) beforeTail_powerOn bytes
  rw [calls, hnone]
  exact List.filterMap_eq_nil_iff.mpr fun c hc => (List.mem_replicate.mp hc).2

/-- The checksum state is never left with the counter at zero. -/
theorem final_crc {p : BlueParser} (h : p.blueFlag = blueCrc) (hc : p.revCount = 0)
    (bytes : List Byte) : Mealy.final inputBlueTooth p bytes = p := by
  have hstep : ∀ ch, inputBlueTooth p ch = (p, none) := by
    intro ch
    obtain ⟨flag, status, count, code⟩ := p
    simp only at h hc
    subst h hc
    rfl
  exact Mealy.final_invariant inputBlueTooth (I := (· = p))
    (fun _ ch hs => by rw [hs, hstep ch]) rfl bytes

/-- The data bytes end in the checksum state with the counter at zero. -/
theorem final_payload (f : Frame) (status : Vector Byte 6) (code : Nat) :
    ∃ status', Mealy.final inputBlueTooth ⟨blueData, status, 0, code⟩ f.payload =
      ⟨blueCrc, status', 0, code⟩ := by
  simp [Frame.payload, inputBlueTooth, blueData, blueHead, blueFuncode, blueLen]

/-- **The first frame stops the parser for good**: after it and any bytes that
follow, the parser is in the checksum state. -/
theorem final_first_frame (f : Frame) (bytes : List Byte) :
    (Mealy.final inputBlueTooth powerOn (f.bytes ++ bytes)).blueFlag = blueCrc := by
  have hheader : Mealy.final inputBlueTooth powerOn [blueHead, f.funCode, blueLen] =
      ⟨blueData, Vector.replicate 6 0, 0, f.funCode.toNat⟩ := by
    rcases f.known with hf | hf <;> rw [hf] <;> rfl
  obtain ⟨status, hpayload⟩ := final_payload f (Vector.replicate 6 0) f.funCode.toNat
  rw [Frame.bytes, List.append_assoc, List.append_assoc, Mealy.final_append, hheader,
    Mealy.final_append, hpayload, final_crc rfl rfl]

/-! ## Whole sequences from power-on -/

/-- **From power-on no sequence of frames is handled.** -/
theorem powerOn_handlesAll_never (frames : List Frame) (h : frames ≠ []) :
    ¬ HandlesAll powerOn frames := by
  cases frames with
  | nil => exact absurd rfl h
  | cons f fs =>
    intro hall
    have hcalled := hall.1.called
    rw [calls_powerOn] at hcalled
    exact absurd hcalled (by simp)

/-- A calibration frame and a data frame. -/
def calibrationThenData : List Frame :=
  [⟨blueInitfuncode, Vector.replicate 6 0, Vector.replicate 2 0, .inr rfl⟩,
    ⟨blueFuncode, #v[0, 0, 0, 50, 0, 0], Vector.replicate 2 0, .inl rfl⟩]

theorem powerOn_handlesAll_never_two : ¬ HandlesAll powerOn calibrationThenData :=
  powerOn_handlesAll_never _ (by decide)

/-- A calibration frame whose handler is not called. -/
theorem powerOn_loses_calibration :
    ¬ ∀ frames : List Frame, frames ≠ [] → HandlesAll powerOn frames := by
  intro h
  have hcalled := (h calibrationThenData (by decide)).1.called
  rw [calls_powerOn] at hcalled
  exact absurd hcalled (by simp)

end ControlRTT.Applications.BlueFrame

import ControlRTT.Lib.Mealy
import ControlRTT.Lib.CInt

/-! # Reply frames of the motor controller

`ansyMacnData` (machControl.c) is called by the receive loop of macnApp.c with
one byte at a time and keeps its place in the frame in static variables. A
parser whose flag is `MACH_SW_HEAD` and whose counters are zero recognises every
well-formed frame (`hunting_recognises`). The flag's initializer is the header
byte `MACH_HEAD`, which is no state of the switch: a parser in its power-on
state is moved by no byte (`ansyMacnData_powerOn`). -/
namespace ControlRTT.Applications.MachReply
open ControlRTT.Lib ControlRTT.Lib.CInt

/-! ## Constants of machOperation.h and machControl.h -/

def machHead : Byte := 0x55
def machAddress : Byte := 0x01
def machFuncode : Byte := 0x02
def machTitle : Byte := 0xAA
def machRevLen : Byte := 0x04

def machSwHead : Byte := 0x01
def machSwAddress : Byte := 0x02
def machSwFuncode : Byte := 0x03
def machSwLen : Byte := 0x04
def machSwData : Byte := 0x05
def machSwCrc : Byte := 0x06
def machSwTitle : Byte := 0x07

/-! ## The parser -/

inductive ErrorStatus where
  | success
  | error
  deriving DecidableEq, Repr

/-- The static variables of `ansyMacnData`, with their initializers. -/
structure MacnParser where
  macnFlag : Byte := machHead
  macnStatus : Vector Byte 4 := Vector.replicate 4 0
  addCrc : Vector Byte 2 := Vector.replicate 2 0
  revCount : Nat := 0
  crc : Nat := 0
  deriving DecidableEq, Repr

/-- The parser and the two globals it reports to. -/
structure MachState where
  parser : MacnParser := {}
  sMachStatus : ErrorStatus := .success
  gNowSpeed : Nat := 0
  deriving DecidableEq, Repr

/-- What one call gives: its return value, and the arguments of its call of
`sendSignalDataToPc` if it makes one. -/
structure MacnReply where
  rpy : ErrorStatus := .success
  sent : Option (Byte × Byte) := none
  deriving DecidableEq, Repr

/-- The reply of a call that recognises nothing. -/
def silent : MacnReply := {}

def powerOn : MachState := {}

/-- One received byte. The cases are those of the switch on `macnFlag`; a flag
that is no case of it leaves everything as it was. -/
def ansyMacnData (s : MachState) (ch : Byte) : MachState × MacnReply :=
  let p := s.parser
  if p.macnFlag = machSwHead then
    ({ s with parser := if ch = machHead then { p with macnFlag := machSwAddress } else p }, silent)
  else if p.macnFlag = machSwAddress then
    ({ s with parser := { p with
        macnFlag := if ch = machAddress then machSwFuncode else machSwHead } }, silent)
  else if p.macnFlag = machSwFuncode then
    ({ s with parser := if ch = machFuncode
        then { p with macnFlag := machSwLen, crc := p.crc + ch.toNat }
        else { p with macnFlag := machSwHead, crc := 0 } }, silent)
  else if p.macnFlag = machSwLen then
    ({ s with parser := if ch = machRevLen
        then { p with macnFlag := machSwData, crc := p.crc + ch.toNat }
        else { p with macnFlag := machSwHead, crc := 0 } }, silent)
  else if p.macnFlag = machSwData then
    let p := { p with
      macnStatus := p.macnStatus.setIfInBounds p.revCount ch
      revCount := p.revCount + 1
      crc := p.crc + ch.toNat }
    ({ s with parser := if p.revCount = machRevLen.toNat
        then { p with macnFlag := machSwCrc, revCount := 0 } else p }, silent)
  else if p.macnFlag = machSwCrc then
    let p := { p with
      addCrc := p.addCrc.setIfInBounds p.revCount ch
      revCount := p.revCount + 1 }
    ({ s with parser := if p.revCount = 2 then
        { p with
          macnFlag := if p.addCrc[0]!.toNat = (p.crc &&& 0xFF00) >>> 8 ∧
              p.addCrc[1]!.toNat = p.crc &&& 0x00FF then machSwTitle else machSwHead
          revCount := 0
          crc := 0 }
        else p }, silent)
  else if p.macnFlag = machSwTitle then
    let s' := { s with parser := { p with macnFlag := machSwHead } }
    if ch = machTitle then
      if p.macnStatus[0]! > 0x01 then
        ({ s' with sMachStatus := .error }, { rpy := .error })
      else
        ({ s' with gNowSpeed := joinBytes p.macnStatus[2]! p.macnStatus[3]! },
          { sent := some (p.macnStatus[2]!, p.macnStatus[3]!) })
    else (s', silent)
  else (s, silent)

/-! ## Frames -/

/-- The four data bytes of a reply; the other bytes of the frame follow from them. -/
structure ReplyFrame where
  data : Vector Byte 4
  deriving DecidableEq, Repr

namespace ReplyFrame

/-- Function code, length and data, summed. -/
def sum (f : ReplyFrame) : Nat :=
  machFuncode.toNat + machRevLen.toNat + f.data[0]!.toNat + f.data[1]!.toNat +
    f.data[2]!.toNat + f.data[3]!.toNat

def header : List Byte := [machHead, machAddress, machFuncode, machRevLen]
def payload (f : ReplyFrame) : List Byte := [f.data[0]!, f.data[1]!, f.data[2]!, f.data[3]!]
def check (f : ReplyFrame) : List Byte := [BitVec.ofNat 8 (f.sum >>> 8), BitVec.ofNat 8 f.sum]

/-- The eleven bytes on the wire. -/
def bytes (f : ReplyFrame) : List Byte := header ++ f.payload ++ f.check ++ [machTitle]

/-- What the call on the last byte of the frame returns. -/
def reply (f : ReplyFrame) : MacnReply :=
  if f.data[0]! > 0x01 then { rpy := .error } else { sent := some (f.data[2]!, f.data[3]!) }

end ReplyFrame

/-- The frame is recognised once, by the call on its last byte: that call reports
it, the ten before it report nothing, the globals get what the frame says and
nothing else, and the parser hunts for the next header. -/
structure Recognises (s : MachState) (f : ReplyFrame) : Prop where
  reported : Mealy.outputs ansyMacnData s f.bytes = List.replicate 10 silent ++ [f.reply]
  status : (Mealy.final ansyMacnData s f.bytes).sMachStatus =
    if f.data[0]! > 0x01 then .error else s.sMachStatus
  speed : (Mealy.final ansyMacnData s f.bytes).gNowSpeed =
    if f.data[0]! > 0x01 then s.gNowSpeed else joinBytes f.data[2]! f.data[3]!
  hunts : (Mealy.final ansyMacnData s f.bytes).parser.macnFlag = machSwHead

/-- Every frame of the list is recognised, each from the state the ones before it leave. -/
def RecognisesAll (s : MachState) : List ReplyFrame → Prop
  | [] => True
  | f :: fs => Recognises s f ∧ RecognisesAll (Mealy.final ansyMacnData s f.bytes) fs

/-! ## The power-on state -/

/-- No byte moves a power-on parser: `MACH_HEAD` is no case of the switch. -/
theorem ansyMacnData_powerOn (ch : Byte) : ansyMacnData powerOn ch = (powerOn, silent) := rfl

theorem final_powerOn (bytes : List Byte) : Mealy.final ansyMacnData powerOn bytes = powerOn :=
  Mealy.final_invariant ansyMacnData (I := (· = powerOn))
    (fun _ ch hs => hs ▸ congrArg Prod.fst (ansyMacnData_powerOn ch)) rfl bytes

theorem not_recognises_powerOn (f : ReplyFrame) : ¬ Recognises powerOn f := by
  intro h
  have hunts := h.hunts
  rw [final_powerOn] at hunts
  exact absurd hunts (by decide)

/-! ## A hunting parser -/

/-- Waiting for a header with the counters cleared: the state after every frame. -/
structure Hunting (p : MacnParser) : Prop where
  flag : p.macnFlag = machSwHead
  count : p.revCount = 0
  crc : p.crc = 0

private theorem stored_in_order (v data : Vector Byte 4) :
    (((v.setIfInBounds 0 data[0]!).setIfInBounds 1 data[1]!).setIfInBounds 2 data[2]!).setIfInBounds
      3 data[3]! = data := by
  apply Vector.ext
  intro i hi
  match i, hi with
  | 0, _ | 1, _ | 2, _ | 3, _ => simp

section Frame
variable (status : Vector Byte 4) (add : Vector Byte 2) (crc : Nat) (mach : ErrorStatus)
  (speed : Nat) (f : ReplyFrame)

/-- The header takes a hunting parser to the data bytes, with code and length summed. -/
theorem final_header : Mealy.final ansyMacnData ⟨⟨machSwHead, status, add, 0, 0⟩, mach, speed⟩
    ReplyFrame.header = ⟨⟨machSwData, status, add, 0, 6⟩, mach, speed⟩ := rfl

theorem outputs_header : Mealy.outputs ansyMacnData ⟨⟨machSwHead, status, add, 0, 0⟩, mach, speed⟩
    ReplyFrame.header = List.replicate 4 silent := rfl

/-- The payload is stored in order and added to the sum. -/
theorem final_payload : Mealy.final ansyMacnData ⟨⟨machSwData, status, add, 0, 6⟩, mach, speed⟩
    f.payload = ⟨⟨machSwCrc, f.data, add, 0, f.sum⟩, mach, speed⟩ := by
  simpa [ReplyFrame.payload, ReplyFrame.sum, ansyMacnData, machSwData, machSwHead, machSwAddress,
    machSwFuncode, machSwLen, machRevLen, machFuncode] using stored_in_order status f.data

theorem outputs_payload :
    Mealy.outputs ansyMacnData ⟨⟨machSwData, status, add, 0, crc⟩, mach, speed⟩
    f.payload = List.replicate 4 silent := by
  simp [ReplyFrame.payload, ansyMacnData, machSwData, machSwHead, machSwAddress,
    machSwFuncode, machSwLen, machRevLen, List.replicate]

/-- The two check bytes are the sum's, high byte first. -/
theorem check_toNat : (BitVec.ofNat 8 (f.sum >>> 8)).toNat = (f.sum &&& 0xFF00) >>> 8 ∧
    (BitVec.ofNat 8 f.sum).toNat = f.sum &&& 0x00FF := by
  have hlow : f.sum &&& 0x00FF = f.sum % 256 := Nat.and_two_pow_sub_one_eq_mod _ 8
  have hhigh : (f.sum &&& 0xFF00) >>> 8 = f.sum >>> 8 % 256 := by
    rw [Nat.shiftRight_and_distrib]
    exact Nat.and_two_pow_sub_one_eq_mod _ 8
  exact ⟨by rw [hhigh, BitVec.toNat_ofNat], by rw [hlow, BitVec.toNat_ofNat]⟩

/-- A matching check takes the parser to the title byte with its counters cleared. -/
theorem final_check : ∃ add', Mealy.final ansyMacnData
    ⟨⟨machSwCrc, status, add, 0, f.sum⟩, mach, speed⟩ f.check =
      ⟨⟨machSwTitle, status, add', 0, 0⟩, mach, speed⟩ := by
  have hc := check_toNat f
  simp [ReplyFrame.check, ansyMacnData, machSwData, machSwHead, machSwAddress, machSwFuncode,
    machSwLen, machSwCrc, hc]

theorem outputs_check : Mealy.outputs ansyMacnData ⟨⟨machSwCrc, status, add, 0, crc⟩, mach, speed⟩
    f.check = List.replicate 2 silent := by
  simp [ReplyFrame.check, ansyMacnData, machSwData, machSwHead, machSwAddress, machSwFuncode,
    machSwLen, machSwCrc, List.replicate]

/-- The title byte reports the stored data. -/
theorem ansyMacnData_title :
    ansyMacnData ⟨⟨machSwTitle, f.data, add, 0, 0⟩, mach, speed⟩ machTitle =
    (⟨⟨machSwHead, f.data, add, 0, 0⟩, if f.data[0]! > 0x01 then .error else mach,
      if f.data[0]! > 0x01 then speed else joinBytes f.data[2]! f.data[3]!⟩, f.reply) := by
  simp [ansyMacnData, ReplyFrame.reply, machSwTitle, machSwHead, machSwAddress, machSwFuncode,
    machSwLen, machSwData, machSwCrc]
  split <;> rfl

/-- Everything before the title byte: the data are stored and the check has matched. -/
theorem before_title :
    (∃ add', Mealy.final ansyMacnData ⟨⟨machSwHead, status, add, 0, 0⟩, mach, speed⟩
      (ReplyFrame.header ++ f.payload ++ f.check) =
        ⟨⟨machSwTitle, f.data, add', 0, 0⟩, mach, speed⟩) ∧
    Mealy.outputs ansyMacnData ⟨⟨machSwHead, status, add, 0, 0⟩, mach, speed⟩
      (ReplyFrame.header ++ f.payload ++ f.check) = List.replicate 10 silent := by
  constructor
  · obtain ⟨add', hcheck⟩ := final_check f.data add mach speed f
    exact ⟨add', by rw [Mealy.final_append, Mealy.final_append, final_header, final_payload,
      hcheck]⟩
  · rw [Mealy.outputs_append, Mealy.outputs_append, Mealy.final_append, outputs_header,
      final_header, outputs_payload, final_payload, outputs_check]
    rfl

end Frame

/-- **A hunting parser recognises a frame** and is hunting again after it. -/
theorem hunting_recognises {s : MachState} (h : Hunting s.parser) (f : ReplyFrame) :
    Recognises s f ∧ Hunting (Mealy.final ansyMacnData s f.bytes).parser := by
  obtain ⟨⟨_, status, add, _, _⟩, mach, speed⟩ := s
  obtain ⟨rfl, rfl, rfl⟩ := h
  obtain ⟨⟨add', hbefore⟩, hsilent⟩ := before_title status add mach speed f
  have hfinal : Mealy.final ansyMacnData ⟨⟨machSwHead, status, add, 0, 0⟩, mach, speed⟩ f.bytes =
      ⟨⟨machSwHead, f.data, add', 0, 0⟩, if f.data[0]! > 0x01 then .error else mach,
        if f.data[0]! > 0x01 then speed else joinBytes f.data[2]! f.data[3]!⟩ := by
    rw [ReplyFrame.bytes, Mealy.final_append, hbefore, Mealy.final_cons, ansyMacnData_title]
    rfl
  refine ⟨⟨?_, by rw [hfinal], by rw [hfinal], by rw [hfinal]⟩,
    by rw [hfinal]; exact ⟨rfl, rfl, rfl⟩⟩
  rw [ReplyFrame.bytes, Mealy.outputs_append, hsilent, hbefore, Mealy.outputs_cons,
    ansyMacnData_title, Mealy.outputs_nil]

/-- **A hunting parser recognises every frame of a sequence.** -/
theorem hunting_recognisesAll {s : MachState} (h : Hunting s.parser) (frames : List ReplyFrame) :
    RecognisesAll s frames := by
  induction frames generalizing s with
  | nil => trivial
  | cons f fs ih =>
    obtain ⟨hf, hnext⟩ := hunting_recognises h f
    exact ⟨hf, ih hnext⟩

/-! ## Whole sequences from power-on -/

/-- **From power-on no sequence of frames is recognised.** -/
theorem powerOn_recognisesAll_never (frames : List ReplyFrame) (h : frames ≠ []) :
    ¬ RecognisesAll powerOn frames := by
  cases frames with
  | nil => exact absurd rfl h
  | cons f fs => exact fun hall => not_recognises_powerOn f hall.1

theorem powerOn_recognisesAll_never_two :
    ¬ RecognisesAll powerOn [⟨#v[0, 0, 1, 44]⟩, ⟨#v[2, 0, 0, 0]⟩] :=
  powerOn_recognisesAll_never _ (by decide)

/-- A report of speed 300 without error is lost at power-on. -/
theorem powerOn_loses_speed_report :
    ¬ ∀ frames : List ReplyFrame, frames ≠ [] → RecognisesAll powerOn frames :=
  fun h => not_recognises_powerOn ⟨#v[0, 0, 1, 44]⟩ (h [⟨#v[0, 0, 1, 44]⟩] (by decide)).1

end ControlRTT.Applications.MachReply

import ControlRTT.Applications.MachReply
import ControlRTT.Applications.RunSpeed

/-! # The motor thread

`app_macn_thread_entry` (macnApp.c) takes what the motor controller has sent and writes a frame to
it, over and over, while the rest of the program changes the run word. The frame says what the run
word says, or to stop once the parser has reported an error; as the program starts its parser hears
no reply, so that no error stops the motor (`motor_frames`). A parser that hunts for a header
reports the error replies (`motor_frames_hunting`). The run word is read twice, and may change in
between. -/
namespace ControlRTT.Applications.MotorThread
open ControlRTT.Lib ControlRTT.Lib.CInt ControlRTT.Lib.NorFlash
open ControlRTT.Applications.MachReply ControlRTT.Applications.Axes
open ControlRTT.Applications.Joystick ControlRTT.Applications.Control
open ControlRTT.Applications.RunSpeed

/-! ## Frames to the motor controller (machOperation.c) -/

def machLen : Byte := 0x02

/-- `stuMacnSendInfo`, less the data, which are put into the buffer only. A `char` is unsigned. -/
structure StuMacnSendInfo where
  head : Byte
  address : Byte
  funcCode : Byte
  dataLen : Byte
  title : Byte
  deriving DecidableEq, Repr

/-- `initMach` -/
def initMach : StuMacnSendInfo := ⟨machHead, machAddress, machFuncode, machLen, machTitle⟩

/-- The sum is a `short`, and is sent with its low byte first. The assertion on the speed is
compiled to nothing. -/
def machCombineSendBuff (stumach : StuMacnSendInfo) (direct : Byte) (speed : Int) : List Byte :=
  let crc : BitVec 16 := 1 + stumach.address.setWidth 16 + stumach.dataLen.setWidth 16 +
    direct.setWidth 16 + BitVec.ofInt 16 speed
  [stumach.head, stumach.address, stumach.funcCode, stumach.dataLen, direct, BitVec.ofInt 8 speed,
    crc.setWidth 8, (crc >>> 8).setWidth 8, stumach.title]

/-- What `machSendBuffToDev` writes: the direction becomes a `char` on the way. -/
def machSendBuffToDev (stumach : StuMacnSendInfo) (direct speed : Int) : List Byte :=
  machCombineSendBuff stumach (BitVec.ofInt 8 direct) speed

/-- The direction and the speed of a frame, where all the rest of it is right. -/
def decode : List Byte → Option (Int × Int)
  | [head, address, funcCode, dataLen, direct, speed, low, high, title] =>
    if head = machHead ∧ address = machAddress ∧ funcCode = machFuncode ∧ dataLen = machLen ∧
        title = machTitle ∧
        joinBytes high low = 1 + address.toNat + dataLen.toNat + direct.toNat + speed.toNat then
      some (direct.toNat, speed.toNat)
    else none
  | _ => none

/-! ## The thread -/

structure Motor where
  app : AppState
  mach : MachState

inductive Event where
  | app (e : Control.Event)
  | round (received : Option (List Byte)) (between : List Control.Event)

/-- The loop over the bytes that were read. -/
def receive (mach : MachState) (ch : Byte) : MachState × MacnReply :=
  let r := ansyMacnData mach ch
  (if r.2.rpy = .error then { r.1 with sMachStatus := .error } else r.1, r.2)

/-- One round of the loop: a message came or the time was over, and a frame is written. Of what
`getGatcherInfo` gives, the direction is of the run word before the events in between and the speed
of the one after them. -/
def macnRound (s : Motor) (received : Option (List Byte)) (between : List Control.Event) :
    Motor × List Byte :=
  let mach := received.elim s.mach fun bytes => Mealy.final receive s.mach bytes
  let app := Mealy.final Control.step s.app between
  let frame :=
    if mach.sMachStatus = .success then
      machSendBuffToDev initMach (getGatcherInfo s.app.body.gBodyExecInfo).1
        (getGatcherInfo app.body.gBodyExecInfo).2
    else machSendBuffToDev initMach 0 0
  (⟨app, mach⟩, frame)

/-- The state, and the frame that is written if one is. -/
def step (s : Motor) : Event → Motor × Option (List Byte)
  | .app e => ({ s with app := (Control.step s.app e).1 }, none)
  | .round received between =>
    let r := macnRound s received between
    (r.1, some r.2)

/-- The program with the configuration from the flash and a parser in some state. -/
def boot (m : Mem) (mach : MachState) : Motor := ⟨Control.boot m, mach⟩

/-- All the bytes that the rounds have read. -/
def received : List Event → List Byte
  | [] => []
  | .app _ :: es => received es
  | .round bytes _ :: es => bytes.getD [] ++ received es

/-- The events of the rest of the program. -/
def appEvents : List Event → List Control.Event
  | [] => []
  | .app e :: es => e :: appEvents es
  | .round _ between :: es => between ++ appEvents es

/-! ## Round trip -/

theorem joinBytes_halves (w : BitVec 16) :
    joinBytes ((w >>> 8).setWidth 8) (w.setWidth 8) = w.toNat := by
  have hlt := w.isLt
  rw [joinBytes_eq, BitVec.toNat_setWidth, BitVec.toNat_setWidth, BitVec.toNat_ushiftRight,
    Nat.shiftRight_eq_div_pow]
  omega

/-- A frame says what it was made of. -/
theorem decode_machSendBuffToDev {direct speed : Nat} (hd : direct < 256) (hs : speed < 256) :
    decode (machSendBuffToDev initMach direct speed) = some ((direct : Int), (speed : Int)) := by
  have hbyte : ∀ n : Nat, n < 256 → (BitVec.ofInt 8 (n : Int)).toNat = n := by
    intro n hn
    rw [BitVec.ofInt_natCast, BitVec.toNat_ofNat]
    exact Nat.mod_eq_of_lt hn
  have hsum : (1 + machAddress.setWidth 16 + machLen.setWidth 16 +
      (BitVec.ofInt 8 (direct : Int)).setWidth 16 + BitVec.ofInt 16 (speed : Int) : BitVec 16).toNat
      = 1 + machAddress.toNat + machLen.toNat + direct + speed := by
    have hfour : (1 + machAddress.setWidth 16 + machLen.setWidth 16 : BitVec 16) = 4 := by decide
    have hconst : 1 + machAddress.toNat + machLen.toNat = 4 := by decide
    rw [hfour, hconst, BitVec.toNat_add, BitVec.toNat_add, BitVec.toNat_setWidth, hbyte direct hd,
      BitVec.ofInt_natCast, BitVec.toNat_ofNat]
    simp only [BitVec.reduceToNat]
    omega
  rw [machSendBuffToDev, machCombineSendBuff]
  dsimp only [decode, initMach]
  rw [joinBytes_halves, hsum, hbyte direct hd, hbyte speed hs]
  exact if_pos ⟨rfl, rfl, rfl, rfl, rfl, rfl⟩

/-! ## Replies -/

/-- The status is `ERROR` after a call that returns it, and else what it was. -/
def Reports (s : MachState) (r : MachState × MacnReply) : Prop :=
  r.1.sMachStatus = if r.2.rpy = .error then .error else s.sMachStatus

theorem ansyMacnData_reports (s : MachState) (ch : Byte) : Reports s (ansyMacnData s ch) := by
  have hsilent : ∀ parser, Reports s ({ s with parser := parser }, silent) := fun _ => rfl
  unfold ansyMacnData
  refine iteInduction (fun _ => hsilent _) fun _ => ?_
  refine iteInduction (fun _ => hsilent _) fun _ => ?_
  refine iteInduction (fun _ => hsilent _) fun _ => ?_
  refine iteInduction (fun _ => hsilent _) fun _ => ?_
  refine iteInduction (fun _ => hsilent _) fun _ => ?_
  refine iteInduction (fun _ => hsilent _) fun _ => ?_
  refine iteInduction (fun _ => ?_) fun _ => hsilent s.parser
  refine iteInduction (fun _ => ?_) fun _ => hsilent _
  exact iteInduction (fun _ => rfl) fun _ => rfl

/-- The status is set by the parser already. -/
theorem receive_eq (s : MachState) (ch : Byte) : receive s ch = ansyMacnData s ch := by
  have hstatus : (ansyMacnData s ch).1.sMachStatus = _ := ansyMacnData_reports s ch
  unfold receive
  dsimp only
  split
  · rename_i herror
    rw [if_pos herror] at hstatus
    rw [← hstatus]
  · rfl

/-- The status is `ERROR` from the first call on that returns it. -/
theorem final_status (s : MachState) (bytes : List Byte) :
    (Mealy.final ansyMacnData s bytes).sMachStatus =
      if ∃ r ∈ Mealy.outputs ansyMacnData s bytes, r.rpy = .error then .error
      else s.sMachStatus := by
  induction bytes generalizing s with
  | nil => simp
  | cons ch bytes ih =>
    have hstatus : (ansyMacnData s ch).1.sMachStatus = _ := ansyMacnData_reports s ch
    rw [Mealy.final_cons, Mealy.outputs_cons, ih, hstatus]
    by_cases herror : (ansyMacnData s ch).2.rpy = .error
    · simp [herror]
    · simp [herror]

/-- What the calls return for a frame. -/
def replies (f : ReplyFrame) : List MacnReply := List.replicate 10 silent ++ [f.reply]

theorem outputs_frames {s : MachState} (h : Hunting s.parser) (frames : List ReplyFrame) :
    Mealy.outputs ansyMacnData s (frames.flatMap ReplyFrame.bytes) = frames.flatMap replies := by
  induction frames generalizing s with
  | nil => rfl
  | cons f frames ih =>
    obtain ⟨hf, hnext⟩ := hunting_recognises h f
    rw [List.flatMap_cons, List.flatMap_cons, Mealy.outputs_append, hf.reported, ih hnext]
    rfl

theorem reply_error_iff (f : ReplyFrame) : f.reply.rpy = .error ↔ f.data[0]! > 0x01 := by
  unfold ReplyFrame.reply
  split
  · rename_i h
    exact iff_of_true rfl h
  · rename_i h
    exact iff_of_false nofun h

/-- An error is returned with the last byte of a frame and not before. -/
theorem error_iff (frames : List ReplyFrame) (n : Nat) :
    (∃ r ∈ (frames.flatMap replies).take n, r.rpy = .error) ↔
      ∃ f ∈ frames.take (n / 11), f.data[0]! > 0x01 := by
  induction frames generalizing n with
  | nil => simp
  | cons f frames ih =>
    have hlength : (replies f).length = 11 := by simp [replies]
    rw [List.flatMap_cons, List.take_append, hlength]
    by_cases hn : n < 11
    · have hzero : n / 11 = 0 := Nat.div_eq_of_lt hn
      have hrest : n - 11 = 0 := Nat.sub_eq_zero_of_le hn.le
      rw [hzero, hrest, List.take_zero, List.take_zero, List.append_nil, replies,
        List.take_append_of_le_length (by rw [List.length_replicate]; omega)]
      refine iff_of_false ?_ (by simp)
      intro ⟨r, hr, herror⟩
      rw [List.eq_of_mem_replicate (List.mem_of_mem_take hr)] at herror
      cases herror
    · have hdiv : n / 11 = (n - 11) / 11 + 1 := by omega
      have hall : (replies f).take n = replies f :=
        List.take_of_length_le (by rw [hlength]; omega)
      have hhead : (∃ r ∈ replies f, r.rpy = .error) ↔ f.data[0]! > 0x01 := by
        rw [← reply_error_iff]
        simp [replies, silent]
      rw [hall, hdiv, List.take_succ_cons]
      simp only [List.mem_append, or_and_right, exists_or, List.mem_cons, exists_eq_left]
      exact or_congr hhead (ih (n - 11))

/-! ## Runs -/

theorem round_mach (s : Motor) (bytes : Option (List Byte)) (between : List Control.Event) :
    (macnRound s bytes between).1.mach = Mealy.final ansyMacnData s.mach (bytes.getD []) := by
  have hreceive : receive = ansyMacnData := funext fun s => funext fun ch => receive_eq s ch
  unfold macnRound
  rw [hreceive]
  cases bytes <;> rfl

/-- The parser has got all the bytes of the rounds. -/
theorem final_mach (s : Motor) (es : List Event) :
    (Mealy.final step s es).mach = Mealy.final ansyMacnData s.mach (received es) := by
  induction es generalizing s with
  | nil => rfl
  | cons e es ih =>
    rw [Mealy.final_cons, ih]
    cases e with
    | app e => rfl
    | round bytes between =>
      rw [received, Mealy.final_append, ← round_mach s bytes between]
      rfl

/-- The rest of the program goes on as if there was no motor thread. -/
theorem final_app (s : Motor) (es : List Event) :
    (Mealy.final step s es).app = Mealy.final Control.step s.app (appEvents es) := by
  induction es generalizing s with
  | nil => rfl
  | cons e es ih =>
    rw [Mealy.final_cons, ih]
    cases e with
    | app e => rfl
    | round bytes between =>
      rw [appEvents, Mealy.final_append]
      rfl

/-- Direction and speed of a run word are bytes. -/
theorem gatcherInfo_bytes {s : AppState} (h : RunInv s) :
    ∃ direct speed : Nat, direct < 256 ∧ speed < 256 ∧
      getGatcherInfo s.body.gBodyExecInfo = ((direct : Int), (speed : Int)) := by
  obtain ⟨direction, speed, ⟨hlo, hhi⟩, hdir, hword⟩ := h.word
  have hdirect : ∃ direct : Nat, direct < 256 ∧ (highHalf direction).toInt = direct := by
    obtain rfl | rfl | rfl := hdir
    · exact ⟨1, by decide, by decide⟩
    · exact ⟨2, by decide, by decide⟩
    · exact ⟨0, by decide, by decide⟩
  obtain ⟨direct, hlt, hdirect⟩ := hdirect
  refine ⟨direct, speed.toNat, hlt, by omega, ?_⟩
  rw [getGatcherInfo, hword.direct_eq, hword.speed_eq, hdirect, Int.toNat_of_nonneg hlo]

theorem final_runInv (m : Mem) (mach : MachState) (es : List Event) :
    RunInv (Mealy.final step (boot m mach) es).app := by
  rw [final_app]
  exact reached_runInv m (appEvents es)

/-- What the run word says in a round. -/
def demanded (s : AppState) (between : List Control.Event) : Int × Int :=
  ((getGatcherInfo s.body.gBodyExecInfo).1,
    (getGatcherInfo (Mealy.final Control.step s between).body.gBodyExecInfo).2)

/-- The frame of a round says to stop, or what the run word says. -/
theorem decode_round {s : Motor} (h : RunInv s.app) (bytes : Option (List Byte))
    (between : List Control.Event) :
    decode (macnRound s bytes between).2 = some (
      if (macnRound s bytes between).1.mach.sMachStatus = .success then demanded s.app between
      else (0, 0)) := by
  have hafter : RunInv (Mealy.final Control.step s.app between) :=
    Mealy.final_invariant Control.step step_runInv h between
  obtain ⟨direct, speed₁, hdirect, -, hbefore⟩ := gatcherInfo_bytes h
  obtain ⟨direct₂, speed, -, hspeed, hafter⟩ := gatcherInfo_bytes hafter
  unfold macnRound demanded
  dsimp only
  split
  · rw [hbefore, hafter]
    exact decode_machSendBuffToDev hdirect hspeed
  · exact @decode_machSendBuffToDev 0 0 (by decide) (by decide)

/-- The state that the parser is in when the frame of a round is made. -/
theorem round_after (m : Mem) (mach : MachState) (es : List Event) (bytes : Option (List Byte))
    (between : List Control.Event) :
    (macnRound (Mealy.final step (boot m mach) es) bytes between).1.mach =
      Mealy.final ansyMacnData mach (received (es ++ [Event.round bytes between])) := by
  have hall := final_mach (boot m mach) (es ++ [Event.round bytes between])
  rw [Mealy.final_append] at hall
  exact hall

/-- What the calls of the parser have returned by the end of a round. -/
def reported (mach : MachState) (es : List Event) (bytes : Option (List Byte))
    (between : List Control.Event) : List MacnReply :=
  Mealy.outputs ansyMacnData mach (received (es ++ [Event.round bytes between]))

theorem decode_after (m : Mem) (mach : MachState) (es : List Event) (bytes : Option (List Byte))
    (between : List Control.Event) :
    let s := Mealy.final step (boot m mach) es
    decode (macnRound s bytes between).2 = some (
      if mach.sMachStatus = .success ∧ ∀ r ∈ reported mach es bytes between, r.rpy = .success
      then demanded s.app between else (0, 0)) := by
  intro s
  have hstatus := final_status mach (received (es ++ [Event.round bytes between]))
  rw [decode_round (final_runInv m mach es), round_after]
  by_cases hstop : ∃ r ∈ reported mach es bytes between, r.rpy = .error
  · obtain ⟨r, hr, herror⟩ := hstop
    have hnot : ¬ (mach.sMachStatus = .success ∧
        ∀ r ∈ reported mach es bytes between, r.rpy = .success) := by
      intro ⟨_, hall⟩
      cases herror.symm.trans (hall r hr)
    rw [if_pos ⟨r, hr, herror⟩] at hstatus
    rw [hstatus, if_neg hnot]
    rfl
  · have hall : ∀ r ∈ reported mach es bytes between, r.rpy = .success := by
      intro r hr
      cases hrpy : r.rpy with
      | success => rfl
      | error => exact absurd ⟨r, hr, hrpy⟩ hstop
    rw [reported] at hstop
    rw [if_neg hstop] at hstatus
    rw [hstatus]
    by_cases hok : mach.sMachStatus = .success
    · rw [if_pos hok, if_pos ⟨hok, hall⟩]
    · rw [if_neg hok, if_neg fun h => hok h.1]

/-- With a parser that hunts, the motor stops once an error reply has been read to its end, however
the replies are cut into messages. -/
theorem motor_frames_hunting (m : Mem) {mach : MachState} (h : Hunting mach.parser)
    (hok : mach.sMachStatus = .success) (frames : List ReplyFrame) (es : List Event)
    (bytes : Option (List Byte)) (between : List Control.Event)
    (hreceived : received (es ++ [Event.round bytes between]) <+: frames.flatMap ReplyFrame.bytes) :
    let s := Mealy.final step (boot m mach) es
    let n := (received (es ++ [Event.round bytes between])).length / 11
    decode (macnRound s bytes between).2 = some (
      if ∃ f ∈ frames.take n, f.data[0]! > 0x01 then (0, 0) else demanded s.app between) := by
  intro s n
  have houtputs : Mealy.outputs ansyMacnData mach (received (es ++ [Event.round bytes between])) =
      (frames.flatMap replies).take (received (es ++ [Event.round bytes between])).length := by
    rw [← outputs_frames h, Mealy.outputs_of_prefix ansyMacnData hreceived]
  have herror := error_iff frames (received (es ++ [Event.round bytes between])).length
  have hstatus := final_status mach (received (es ++ [Event.round bytes between]))
  rw [houtputs, hok] at hstatus
  rw [decode_round (final_runInv m mach es), round_after, hstatus]
  by_cases hstop : ∃ f ∈ frames.take n, f.data[0]! > 0x01
  · rw [if_pos (herror.mpr hstop), if_pos hstop]
    rfl
  · rw [if_neg fun hin => hstop (herror.mp hin), if_neg hstop]
    rfl

/-- An error reply that comes in two messages stops the motor with the second. -/
example : decode (macnRound (Mealy.final step (boot erased { powerOn with
      parser := { macnFlag := machSwHead } })
      [.round (some ((ReplyFrame.mk #v[2, 0, 0, 0]).bytes.take 5)) []])
      (some ((ReplyFrame.mk #v[2, 0, 0, 0]).bytes.drop 5)) []).2 = some (0, 0) :=
  motor_frames_hunting erased ⟨rfl, rfl, rfl⟩ rfl [⟨#v[2, 0, 0, 0]⟩] [.round _ []] _ []
    (by decide)

/-- No byte makes the parser of the program's own start report anything. -/
theorem outputs_powerOn {bytes : List Byte} {r : MacnReply}
    (h : r ∈ Mealy.outputs ansyMacnData powerOn bytes) : r = silent := by
  induction bytes with
  | nil => cases h
  | cons ch bytes ih =>
    rw [Mealy.outputs_cons, ansyMacnData_powerOn] at h
    obtain rfl | h := List.mem_cons.mp h
    · rfl
    · exact ih h

/-- **What the motor is told**, whatever state the parser starts in: in every round what the run
word says, until a call of the parser has reported an error, and to stop from then on. As the
program starts, with the flag of the parser at `MACH_HEAD`, it is what the run word says in every
round of every run. -/
theorem motor_frames (m : Mem) (mach : MachState) (es : List Event) (bytes : Option (List Byte))
    (between : List Control.Event) :
    (let s := Mealy.final step (boot m mach) es
      ∃ frame, (step s (.round bytes between)).2 = some frame ∧ decode frame = some (
        if mach.sMachStatus = .success ∧ ∀ r ∈ reported mach es bytes between, r.rpy = .success
        then demanded s.app between else (0, 0))) ∧
    (let s := Mealy.final step (boot m powerOn) es
      ∃ frame, (step s (.round bytes between)).2 = some frame ∧
        decode frame = some (demanded s.app between)) := by
  refine ⟨⟨_, rfl, decode_after m mach es bytes between⟩, _, rfl, ?_⟩
  exact (decode_after m powerOn es bytes between).trans
    (congrArg some (if_pos ⟨rfl, fun r hr => (outputs_powerOn hr).symm ▸ rfl⟩))

end ControlRTT.Applications.MotorThread

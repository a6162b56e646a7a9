import Mathlib.Data.BitVec
import ControlRTT.Lib.Runs

/-! # Modbus frames in ASCII

`components/net/freemodbus/modbus/ascii/mbascii.c`: a frame is sent as a colon, two hexadecimal
digits for each byte, and an end of line, one character for each call of the transmitter's state
machine. What one port sends the other one receives, whatever it has got before, and it takes no
frame for good in which one byte is another one (`frame_received`). The character timer is on just
while a frame is received, as the assertion in its handler has it, but for a frame in which the
carriage return is followed by something else (`timer_throughout_iff`). -/
namespace ControlRTT.Net.ModbusAscii
open ControlRTT.Lib.Runs

abbrev Uchar := BitVec 8

def mbAsciiDefaultCr : Uchar := 0x0D
def mbAsciiDefaultLf : Uchar := 0x0A
def colon : Uchar := 0x3A
def mbSerPduSizeMin : Nat := 3
def mbSerPduSizeMax : Nat := 256

/-- `eMBRcvState` -/
inductive RcvState where
  | rxIdle | rxRcv | rxWaitEof
  deriving DecidableEq, Repr

/-- `eMBSndState` -/
inductive SndState where
  | txIdle | txStart | txData | txEnd | txNotify
  deriving DecidableEq, Repr

inductive BytePos where
  | highNibble | lowNibble
  deriving DecidableEq, Repr

/-- The static variables, with the entries of `ucASCIIBuf`, and whether the timer is on.
`pucSndBufferCur` is an index into the buffer. -/
structure Port where
  eSndState : SndState
  eRcvState : RcvState
  ucASCIIBuf : Nat → Uchar
  usRcvBufferPos : Nat
  eBytePos : BytePos
  pucSndBufferCur : Nat
  usSndBufferCount : Nat
  ucMBLFCharacter : Uchar := mbAsciiDefaultLf
  timer : Bool

namespace Port

def put (p : Port) (i : Nat) (b : Uchar) : Port :=
  { p with ucASCIIBuf := fun j => if j = i then b else p.ucASCIIBuf j }

/-- The first bytes of the buffer. -/
def frame (p : Port) (n : Nat) : List Uchar := (List.range n).map p.ucASCIIBuf

end Port

def prvucMBCHAR2BIN (ucCharacter : Uchar) : Uchar :=
  if 0x30 ≤ ucCharacter ∧ ucCharacter ≤ 0x39 then ucCharacter - 0x30
  else if 0x41 ≤ ucCharacter ∧ ucCharacter ≤ 0x46 then ucCharacter - 0x41 + 0x0A
  else 0xFF

/-- Other numbers are a programming error. -/
def prvucMBBIN2CHAR (ucByte : Uchar) : Option Uchar :=
  if ucByte ≤ 0x09 then some (0x30 + ucByte)
  else if 0x0A ≤ ucByte ∧ ucByte ≤ 0x0F then some (ucByte - 0x0A + 0x41)
  else none

/-- The two's complement of the sum. -/
def prvucMBLRC (frame : List Uchar) : Uchar := -frame.sum

inductive ErrorCode where
  | mbEnoerr | mbEio
  deriving DecidableEq, Repr

/-- `eMBASCIIReceive`: the address and the length of the frame, which is in the buffer from its
second entry on. None where the assertion fails. -/
def eMBASCIIReceive (p : Port) : Option (Except ErrorCode (Uchar × Nat)) :=
  if p.usRcvBufferPos < mbSerPduSizeMax then
    if mbSerPduSizeMin ≤ p.usRcvBufferPos ∧ prvucMBLRC (p.frame p.usRcvBufferPos) = 0 then
      some (.ok (p.ucASCIIBuf 0, p.usRcvBufferPos - 2))
    else some (.error .mbEio)
  else none

/-- `eMBASCIISend`, for a frame that lies in the buffer from its second entry on. -/
def eMBASCIISend (p : Port) (ucSlaveAddress : Uchar) (usLength : Nat) : ErrorCode × Port :=
  if p.eRcvState = .rxIdle then
    let p := p.put 0 ucSlaveAddress
    let usLRC := prvucMBLRC (p.frame (1 + usLength))
    (.mbEnoerr, { p.put (1 + usLength) usLRC with
      pucSndBufferCur := 0
      usSndBufferCount := 1 + usLength + 1
      eSndState := .txStart })
  else (.mbEio, p)

namespace Port

/-- A colon: the buffer is emptied. -/
def restart (p : Port) : Port := { p with eBytePos := .highNibble, usRcvBufferPos := 0 }

/-- A digit of the data. -/
def digit (p : Port) (ucResult : Uchar) : Port :=
  match p.eBytePos with
  | .highNibble =>
    if p.usRcvBufferPos < mbSerPduSizeMax then
      { p.put p.usRcvBufferPos (ucResult <<< 4) with eBytePos := .lowNibble }
    else { p with eRcvState := .rxIdle, timer := false }
  | .lowNibble =>
    { p.put p.usRcvBufferPos (p.ucASCIIBuf p.usRcvBufferPos ||| ucResult) with
      usRcvBufferPos := p.usRcvBufferPos + 1
      eBytePos := .highNibble }

end Port

/-- One character is received. Whether `EV_FRAME_RECEIVED` is posted comes with the state. None
where the assertion fails. -/
def xMBASCIIReceiveFSM (p : Port) (ucByte : Uchar) : Option (Port × Bool) :=
  if p.eSndState = .txIdle then
    match p.eRcvState with
    | .rxRcv =>
      let p := { p with timer := true }
      if ucByte = colon then some (p.restart, false)
      else if ucByte = mbAsciiDefaultCr then some ({ p with eRcvState := .rxWaitEof }, false)
      else some (p.digit (prvucMBCHAR2BIN ucByte), false)
    | .rxWaitEof =>
      if ucByte = p.ucMBLFCharacter then
        some ({ p with timer := false, eRcvState := .rxIdle }, true)
      else if ucByte = colon then
        some ({ p.restart with eRcvState := .rxRcv, timer := true }, false)
      else some ({ p with eRcvState := .rxIdle }, false)
    | .rxIdle =>
      if ucByte = colon then some ({ p.restart with eRcvState := .rxRcv, timer := true }, false)
      else some (p, false)
  else none

/-- The transmitter is ready for a character: the one that is sent, if one is. None where an
assertion fails. -/
def xMBASCIITransmitFSM (p : Port) : Option (Port × Option Uchar) :=
  if p.eRcvState = .rxIdle then
    match p.eSndState with
    | .txStart => some ({ p with eSndState := .txData, eBytePos := .highNibble }, some colon)
    | .txData =>
      if 0 < p.usSndBufferCount then
        match p.eBytePos with
        | .highNibble =>
          (prvucMBBIN2CHAR (p.ucASCIIBuf p.pucSndBufferCur >>> 4)).map fun ucByte =>
            ({ p with eBytePos := .lowNibble }, some ucByte)
        | .lowNibble =>
          (prvucMBBIN2CHAR (p.ucASCIIBuf p.pucSndBufferCur &&& 0x0F)).map fun ucByte =>
            ({ p with
              pucSndBufferCur := p.pucSndBufferCur + 1
              eBytePos := .highNibble
              usSndBufferCount := p.usSndBufferCount - 1 }, some ucByte)
      else some ({ p with eSndState := .txEnd }, some mbAsciiDefaultCr)
    | .txEnd => some ({ p with eSndState := .txNotify }, some p.ucMBLFCharacter)
    | .txNotify => some ({ p with eSndState := .txIdle }, none)
    | .txIdle => some (p, none)
  else none

/-- The character timer. None where the assertion fails. -/
def xMBASCIITimerT1SExpired (p : Port) : Option Port :=
  match p.eRcvState with
  | .rxRcv | .rxWaitEof => some { p with eRcvState := .rxIdle, timer := false }
  | .rxIdle => none

/-- After `eMBASCIIStart`. -/
def start (ucASCIIBuf : Nat → Uchar) : Port where
  eSndState := .txIdle
  eRcvState := .rxIdle
  ucASCIIBuf := ucASCIIBuf
  usRcvBufferPos := 0
  eBytePos := .highNibble
  pucSndBufferCur := 0
  usSndBufferCount := 0
  timer := false

/-! ## What a frame is on the line -/

/-- The digit for a number below 16. -/
def hexDigit (n : Uchar) : Uchar := if n ≤ 0x09 then 0x30 + n else n - 0x0A + 0x41

def byteChars (b : Uchar) : List Uchar := [hexDigit (b >>> 4), hexDigit (b &&& 0x0F)]

/-- The characters of some bytes. -/
def frameChars (bytes : List Uchar) : List Uchar :=
  colon :: (bytes.flatMap byteChars ++ [mbAsciiDefaultCr, mbAsciiDefaultLf])

/-- A frame with its address and its checksum. -/
def serialLine (address : Uchar) (pdu : List Uchar) : List Uchar :=
  address :: pdu ++ [prvucMBLRC (address :: pdu)]

/-- So many calls of the transmitter's state machine, and what they send. -/
def transmit : Nat → Port → Option (Port × List Uchar)
  | 0, p => some (p, [])
  | n + 1, p => do
    let called ← xMBASCIITransmitFSM p
    let rest ← transmit n called.1
    return (rest.1, called.2.toList ++ rest.2)

/-- The characters are received, and whether a frame is announced is told of each of them. -/
def receive : List Uchar → Port → Option (Port × List Bool)
  | [], p => some (p, [])
  | ch :: chars, p => do
    let called ← xMBASCIIReceiveFSM p ch
    let rest ← receive chars called.1
    return (rest.1, called.2 :: rest.2)

/-! ## Digits -/

theorem prvucMBBIN2CHAR_high :
    ∀ b : Uchar, prvucMBBIN2CHAR (b >>> 4) = some (hexDigit (b >>> 4)) := by
  decide +kernel

theorem prvucMBBIN2CHAR_low :
    ∀ b : Uchar, prvucMBBIN2CHAR (b &&& 0x0F) = some (hexDigit (b &&& 0x0F)) := by
  decide +kernel

/-- A digit is neither a colon nor a carriage return, and is read as the number that it is. -/
structure IsDigit (ch n : Uchar) : Prop where
  colon : ch ≠ colon
  cr : ch ≠ mbAsciiDefaultCr
  value : prvucMBCHAR2BIN ch = n

instance (ch n : Uchar) : Decidable (IsDigit ch n) :=
  decidable_of_iff (ch ≠ ModbusAscii.colon ∧ ch ≠ mbAsciiDefaultCr ∧ prvucMBCHAR2BIN ch = n)
    ⟨fun h => ⟨h.1, h.2.1, h.2.2⟩, fun h => ⟨h.colon, h.cr, h.value⟩⟩

theorem isDigit_high : ∀ b : Uchar, IsDigit (hexDigit (b >>> 4)) (b >>> 4) := by decide +kernel

theorem isDigit_low : ∀ b : Uchar, IsDigit (hexDigit (b &&& 0x0F)) (b &&& 0x0F) := by
  decide +kernel

theorem nibbles : ∀ b : Uchar, (b >>> 4) <<< 4 ||| (b &&& 0x0F) = b := by decide +kernel

/-! ## Sending -/

theorem transmit_add (a b : Nat) (p : Port) :
    transmit (a + b) p = (transmit a p).bind fun r =>
      (transmit b r.1).map fun r' => (r'.1, r.2 ++ r'.2) := by
  induction a generalizing p with
  | zero =>
    rw [Nat.zero_add]
    change _ = (transmit b p).map fun r' => (r'.1, r'.2)
    simp
  | succ a ih =>
    rw [Nat.succ_add, transmit, transmit]
    cases xMBASCIITransmitFSM p with
    | none => rfl
    | some called =>
      simp only [Option.bind_eq_bind, Option.pure_def, Option.bind_some, ih]
      cases transmit a called.1 with
      | none => rfl
      | some r =>
        simp only [Option.bind_some]
        cases transmit b r.1 with
        | none => rfl
        | some r' => simp

/-- In the middle of a frame, with a byte to send next. -/
structure Sending (p : Port) : Prop where
  rcv : p.eRcvState = .rxIdle
  snd : p.eSndState = .txData
  pos : p.eBytePos = .highNibble

/-- Two calls send a byte. -/
theorem transmit_byte {p : Port} (h : Sending p) (hcount : 0 < p.usSndBufferCount) :
    transmit 2 p = some ({ p with
      pucSndBufferCur := p.pucSndBufferCur + 1
      usSndBufferCount := p.usSndBufferCount - 1 },
      byteChars (p.ucASCIIBuf p.pucSndBufferCur)) := by
  obtain ⟨hrcv, hsnd, hpos⟩ := h
  have hhigh : xMBASCIITransmitFSM p = some ({ p with eBytePos := .lowNibble },
      some (hexDigit (p.ucASCIIBuf p.pucSndBufferCur >>> 4))) := by
    rw [xMBASCIITransmitFSM, if_pos hrcv, hsnd]
    dsimp only
    rw [if_pos hcount, hpos]
    dsimp only
    rw [prvucMBBIN2CHAR_high]
    rfl
  have hlow : xMBASCIITransmitFSM { p with eBytePos := .lowNibble } = some ({ p with
      pucSndBufferCur := p.pucSndBufferCur + 1
      usSndBufferCount := p.usSndBufferCount - 1 },
      some (hexDigit (p.ucASCIIBuf p.pucSndBufferCur &&& 0x0F))) := by
    rw [xMBASCIITransmitFSM, if_pos hrcv]
    dsimp only
    rw [hsnd]
    dsimp only
    rw [if_pos hcount, prvucMBBIN2CHAR_low, ← hpos]
    rfl
  rw [transmit, hhigh]
  dsimp only [Option.bind_eq_bind, Option.bind_some]
  rw [transmit, hlow]
  rfl

theorem transmit_bytes {p : Port} (h : Sending p) {n : Nat} (hcount : p.usSndBufferCount = n) :
    transmit (2 * n) p = some ({ p with
      pucSndBufferCur := p.pucSndBufferCur + n
      usSndBufferCount := 0 },
      ((List.range' p.pucSndBufferCur n).map p.ucASCIIBuf).flatMap byteChars) := by
  induction n generalizing p with
  | zero =>
    obtain ⟨snd, rcv, buf, pos, byte, cur, count, lf, timer⟩ := p
    cases hcount
    rfl
  | succ n ih =>
    have hfirst := transmit_byte h (by rw [hcount]; exact Nat.succ_pos n)
    have hrest := @ih { p with
      pucSndBufferCur := p.pucSndBufferCur + 1
      usSndBufferCount := p.usSndBufferCount - 1 } ⟨h.rcv, h.snd, h.pos⟩ (by simp [hcount])
    rw [Nat.mul_succ, Nat.add_comm, transmit_add, hfirst, Option.bind_some, hrest,
      Option.map_some]
    rw [List.range'_succ, List.map_cons, List.flatMap_cons, Nat.add_right_comm, Nat.add_assoc]

/-- The calls that a frame takes, of which the last one ends it. -/
theorem transmit_frame {p : Port} (hrcv : p.eRcvState = .rxIdle) (hsnd : p.eSndState = .txStart)
    (hcur : p.pucSndBufferCur = 0) (hlf : p.ucMBLFCharacter = mbAsciiDefaultLf) :
    ∃ p', transmit (1 + 2 * p.usSndBufferCount + 3) p =
        some (p', frameChars (p.frame p.usSndBufferCount)) ∧ p'.eSndState = .txIdle := by
  have hstart : transmit 1 p = some ({ p with eSndState := .txData, eBytePos := .highNibble },
      [colon]) := by
    rw [transmit, xMBASCIITransmitFSM, if_pos hrcv, hsnd]
    rfl
  have hbytes := @transmit_bytes { p with eSndState := .txData, eBytePos := .highNibble }
    ⟨hrcv, rfl, rfl⟩ _ rfl
  have hend : ∀ q : Port, q.eRcvState = .rxIdle → q.eSndState = .txData →
      q.usSndBufferCount = 0 → transmit 3 q =
        some ({ q with eSndState := .txIdle }, [mbAsciiDefaultCr, q.ucMBLFCharacter]) := by
    intro q hrcv hsnd hcount
    rw [transmit, xMBASCIITransmitFSM, if_pos hrcv, hsnd]
    dsimp only
    rw [if_neg (by rw [hcount]; exact Nat.lt_irrefl 0)]
    dsimp only [Option.bind_eq_bind, Option.bind_some]
    rw [transmit, xMBASCIITransmitFSM, if_pos hrcv]
    dsimp only [Option.bind_eq_bind, Option.bind_some]
    rw [transmit, xMBASCIITransmitFSM, if_pos hrcv]
    rfl
  rw [transmit_add, transmit_add, hstart, Option.bind_some, hbytes, Option.map_some,
    Option.bind_some, hend]
  · rw [Option.map_some]
    dsimp only
    rw [hlf, hcur, Port.frame, List.range_eq_range', List.append_assoc]
    exact ⟨_, rfl, rfl⟩
  · exact hrcv
  · rfl
  · rfl

/-! ## Receiving -/

theorem receive_append (chars chars' : List Uchar) (p : Port) :
    receive (chars ++ chars') p = (receive chars p).bind fun r =>
      (receive chars' r.1).map fun r' => (r'.1, r.2 ++ r'.2) := by
  induction chars generalizing p with
  | nil =>
    change _ = (receive chars' p).map fun r' => (r'.1, r'.2)
    simp
  | cons ch chars ih =>
    rw [List.cons_append, receive, receive]
    cases xMBASCIIReceiveFSM p ch with
    | none => rfl
    | some called =>
      simp only [Option.bind_eq_bind, Option.pure_def, Option.bind_some, ih]
      cases receive chars called.1 with
      | none => rfl
      | some r =>
        simp only [Option.bind_some]
        cases receive chars' r.1 with
        | none => rfl
        | some r' => simp

/-- In the middle of a frame of which some bytes have come. -/
structure Receiving (p : Port) (got : List Uchar) : Prop where
  snd : p.eSndState = .txIdle
  rcv : p.eRcvState = .rxRcv
  pos : p.eBytePos = .highNibble
  count : p.usRcvBufferPos = got.length
  frame : p.frame got.length = got
  lf : p.ucMBLFCharacter = mbAsciiDefaultLf

/-- A colon starts a frame in any state. -/
theorem receive_colon {p : Port} (hsnd : p.eSndState = .txIdle)
    (hlf : p.ucMBLFCharacter = mbAsciiDefaultLf) :
    ∃ q, xMBASCIIReceiveFSM p colon = some (q, false) ∧ Receiving q [] := by
  have hne : colon ≠ p.ucMBLFCharacter := by rw [hlf]; decide
  rw [xMBASCIIReceiveFSM, if_pos hsnd]
  cases hrcv : p.eRcvState with
  | rxRcv => exact ⟨_, rfl, hsnd, rfl, rfl, rfl, rfl, hlf⟩
  | rxWaitEof =>
    dsimp only
    rw [if_neg hne]
    exact ⟨_, rfl, hsnd, rfl, rfl, rfl, rfl, hlf⟩
  | rxIdle => exact ⟨_, rfl, hsnd, rfl, rfl, rfl, rfl, hlf⟩

theorem receive_digit {p : Port} (hsnd : p.eSndState = .txIdle) (hrcv : p.eRcvState = .rxRcv)
    {ch n : Uchar} (h : IsDigit ch n) :
    xMBASCIIReceiveFSM p ch = some ({ p with timer := true }.digit n, false) := by
  rw [xMBASCIIReceiveFSM, if_pos hsnd, hrcv]
  dsimp only
  rw [if_neg h.colon, if_neg h.cr, h.value, ← hrcv]

theorem frame_put_self (p : Port) (n : Nat) (b : Uchar) : (p.put n b).frame n = p.frame n :=
  List.map_congr_left fun _ hi => if_neg (Nat.ne_of_lt (List.mem_range.mp hi))

/-- A byte is put behind a frame. -/
theorem frame_put (p : Port) (n : Nat) (b : Uchar) :
    (p.put n b).frame (n + 1) = p.frame n ++ [b] := by
  have hsplit : (p.put n b).frame (n + 1) =
      (p.put n b).frame n ++ [(p.put n b).ucASCIIBuf n] := by
    rw [Port.frame, List.range_succ, List.map_append]
    rfl
  rw [hsplit, frame_put_self]
  exact congrArg (fun b => p.frame n ++ [b]) (if_pos rfl)

theorem digit_high {p : Port} (hpos : p.eBytePos = .highNibble)
    (hroom : p.usRcvBufferPos < mbSerPduSizeMax) (n : Uchar) :
    p.digit n = { p.put p.usRcvBufferPos (n <<< 4) with eBytePos := .lowNibble } := by
  rw [Port.digit, hpos]
  exact if_pos hroom

theorem digit_low {p : Port} (hpos : p.eBytePos = .lowNibble) (n : Uchar) :
    p.digit n = { p.put p.usRcvBufferPos (p.ucASCIIBuf p.usRcvBufferPos ||| n) with
      usRcvBufferPos := p.usRcvBufferPos + 1
      eBytePos := .highNibble } := by
  rw [Port.digit, hpos]

/-- The two digits of a byte. -/
theorem receive_byte {p : Port} {got : List Uchar} (h : Receiving p got)
    (hroom : got.length < mbSerPduSizeMax) (b : Uchar) :
    ∃ q, receive (byteChars b) p = some (q, [false, false]) ∧ Receiving q (got ++ [b]) := by
  have hcount := h.count
  let high : Port := { ({ p with timer := true } : Port).put p.usRcvBufferPos ((b >>> 4) <<< 4) with
    eBytePos := .lowNibble }
  have hhigh : xMBASCIIReceiveFSM p (hexDigit (b >>> 4)) = some (high, false) := by
    have hroom' : p.usRcvBufferPos < mbSerPduSizeMax := by rwa [hcount]
    rw [receive_digit h.snd h.rcv (isDigit_high b),
      @digit_high { p with timer := true } h.pos hroom']
  have hlow : xMBASCIIReceiveFSM high (hexDigit (b &&& 0x0F)) =
      some (({ high with timer := true } : Port).digit (b &&& 0x0F), false) :=
    @receive_digit high h.snd h.rcv _ _ (isDigit_low b)
  have hstored : high.ucASCIIBuf high.usRcvBufferPos = (b >>> 4) <<< 4 := if_pos rfl
  refine ⟨({ high with timer := true } : Port).digit (b &&& 0x0F), ?_, ?_⟩
  · rw [byteChars, receive, hhigh]
    dsimp only [Option.bind_eq_bind, Option.bind_some]
    rw [receive, hlow]
    rfl
  · rw [digit_low rfl]
    dsimp only
    rw [hstored, nibbles]
    refine ⟨h.snd, h.rcv, rfl, ?_, ?_, h.lf⟩
    · rw [List.length_append, ← hcount]
      rfl
    · have hbefore : high.frame p.usRcvBufferPos = got := by
        rw [← h.frame, ← hcount]
        exact frame_put_self p p.usRcvBufferPos ((b >>> 4) <<< 4)
      rw [List.length_append, ← hcount, ← hbefore]
      exact frame_put high p.usRcvBufferPos b

theorem receive_bytes {bytes : List Uchar} {p : Port} {got : List Uchar} (h : Receiving p got)
    (hroom : got.length + bytes.length ≤ mbSerPduSizeMax) :
    ∃ q, receive (bytes.flatMap byteChars) p =
      some (q, List.replicate (2 * bytes.length) false) ∧ Receiving q (got ++ bytes) := by
  induction bytes generalizing p got with
  | nil => exact ⟨p, rfl, by rwa [List.append_nil]⟩
  | cons b bytes ih =>
    rw [List.length_cons] at hroom
    obtain ⟨q, hq, hreceiving⟩ := receive_byte h (by omega) b
    obtain ⟨q', hq', hreceiving'⟩ := ih hreceiving (by
      rw [List.length_append, List.length_singleton]
      omega)
    refine ⟨q', ?_, ?_⟩
    · rw [List.flatMap_cons, receive_append, hq, Option.bind_some, hq', Option.map_some,
        List.length_cons, Nat.mul_succ, Nat.add_comm, ← List.replicate_append_replicate]
      rfl
    · rw [List.append_assoc] at hreceiving'
      exact hreceiving'

/-- The bytes of a whole frame, received in whatever state the port is in. -/
theorem receive_frame {p : Port} (hsnd : p.eSndState = .txIdle)
    (hlf : p.ucMBLFCharacter = mbAsciiDefaultLf) {bytes : List Uchar}
    (hroom : bytes.length ≤ mbSerPduSizeMax) :
    ∃ q, receive (frameChars bytes) p =
        some (q, List.replicate (2 * bytes.length + 2) false ++ [true]) ∧
      q.usRcvBufferPos = bytes.length ∧ q.frame bytes.length = bytes ∧
        q.eRcvState = .rxIdle ∧ q.timer = false := by
  obtain ⟨q₁, hcolon, h₁⟩ := receive_colon hsnd hlf
  obtain ⟨q₂, hbytes, h₂⟩ := @receive_bytes bytes q₁ [] h₁ (by simpa using hroom)
  rw [List.nil_append] at h₂
  have hcr : xMBASCIIReceiveFSM q₂ mbAsciiDefaultCr =
      some ({ q₂ with timer := true, eRcvState := .rxWaitEof }, false) := by
    rw [xMBASCIIReceiveFSM, if_pos h₂.snd, h₂.rcv]
    rfl
  have hend : xMBASCIIReceiveFSM { q₂ with timer := true, eRcvState := .rxWaitEof }
      mbAsciiDefaultLf = some ({ q₂ with timer := false, eRcvState := .rxIdle }, true) := by
    rw [xMBASCIIReceiveFSM, if_pos h₂.snd]
    exact if_pos h₂.lf.symm
  refine ⟨{ q₂ with timer := false, eRcvState := .rxIdle }, ?_, h₂.count, h₂.frame, rfl, rfl⟩
  rw [frameChars, receive, hcolon]
  dsimp only [Option.bind_eq_bind, Option.bind_some]
  rw [receive_append, hbytes, Option.bind_some, receive, hcr]
  dsimp only [Option.bind_eq_bind, Option.bind_some]
  rw [receive, hend]
  rw [List.replicate_succ, List.replicate_succ', List.cons_append, List.append_assoc]
  rfl

/-! ## Round trip -/

theorem sum_append_lrc (bytes : List Uchar) : (bytes ++ [prvucMBLRC bytes]).sum = 0 := by
  rw [List.sum_append, List.sum_singleton, prvucMBLRC]
  exact BitVec.add_right_neg _

/-- Another byte in the place of one makes another sum. -/
theorem sum_set_ne {l : List Uchar} {i : Nat} (hi : i < l.length) {b : Uchar} (hb : b ≠ l[i]) :
    (l.set i b).sum ≠ l.sum := by
  have hsplit : l = l.take i ++ l[i] :: l.drop (i + 1) := by
    rw [List.getElem_cons_drop, List.take_append_drop]
  have hsum : l.sum = (l.take i).sum + (l[i] + (l.drop (i + 1)).sum) := by
    rw [← List.sum_cons, ← List.sum_append, ← hsplit]
  rw [List.set_eq_take_append_cons_drop, if_pos hi, List.sum_append, List.sum_cons, hsum]
  intro heq
  exact hb (by bv_omega)

theorem prvucMBLRC_eq_zero {bytes : List Uchar} : prvucMBLRC bytes = 0 ↔ bytes.sum = 0 := by
  rw [prvucMBLRC]
  constructor <;> intro h <;> bv_omega

/-- What is sent lies in the buffer. -/
theorem send_frame {p : Port} {pdu : List Uchar} (address : Uchar)
    (hpdu : p.frame (1 + pdu.length) = p.ucASCIIBuf 0 :: pdu) (hrcv : p.eRcvState = .rxIdle) :
    let sent := eMBASCIISend p address pdu.length
    sent.1 = .mbEnoerr ∧ sent.2.frame (pdu.length + 2) = serialLine address pdu ∧
      sent.2.usSndBufferCount = pdu.length + 2 ∧ sent.2.pucSndBufferCur = 0 ∧
        sent.2.eSndState = .txStart ∧ sent.2.eRcvState = .rxIdle ∧
          sent.2.ucMBLFCharacter = p.ucMBLFCharacter := by
  have haddress : (p.put 0 address).frame (1 + pdu.length) = address :: pdu := by
    rw [Nat.add_comm, Port.frame, List.range_succ_eq_map, List.map_cons, List.map_map] at hpdu ⊢
    have hrest : (p.put 0 address).ucASCIIBuf ∘ Nat.succ = p.ucASCIIBuf ∘ Nat.succ :=
      funext fun i => if_neg (t := address) (Nat.succ_ne_zero i)
    have hfirst : (p.put 0 address).ucASCIIBuf 0 = address := rfl
    rw [hrest, List.tail_eq_of_cons_eq hpdu, hfirst]
  have hframe : ((p.put 0 address).put (1 + pdu.length) (prvucMBLRC (address :: pdu))).frame
      (1 + pdu.length + 1) = serialLine address pdu := by
    rw [frame_put, haddress]
    rfl
  have hcount : 1 + pdu.length + 1 = pdu.length + 2 := by omega
  unfold eMBASCIISend
  rw [if_pos hrcv]
  dsimp only
  rw [haddress, hcount]
  rw [hcount] at hframe
  exact ⟨rfl, hframe, rfl, rfl, rfl, hrcv, rfl⟩

/-- What becomes of the bytes of a frame. -/
theorem receive_eq {q : Port} {bytes : List Uchar} (hpos : q.usRcvBufferPos = bytes.length)
    (hframe : q.frame bytes.length = bytes) (hmax : bytes.length < mbSerPduSizeMax)
    (hmin : mbSerPduSizeMin ≤ bytes.length) : eMBASCIIReceive q = some (
      if bytes.sum = 0 then .ok (q.ucASCIIBuf 0, bytes.length - 2) else .error .mbEio) := by
  rw [eMBASCIIReceive, hpos, if_pos hmax, hframe]
  by_cases hsum : bytes.sum = 0
  · rw [if_pos hsum, if_pos ⟨hmin, prvucMBLRC_eq_zero.mpr hsum⟩]
  · rw [if_neg hsum, if_neg fun h => hsum (prvucMBLRC_eq_zero.mp h.2)]

/-- The first bytes of a frame. -/
theorem frame_take {q : Port} {n k : Nat} {bytes : List Uchar} (hframe : q.frame n = bytes)
    (hk : k ≤ n) : q.frame k = bytes.take k := by
  rw [← hframe, Port.frame, Port.frame, ← List.map_take, List.take_range, Nat.min_eq_left hk]

/-- One port sends a frame, and the other one receives it. With any other byte in the place of one
of the frame it does not take it for one. -/
structure Delivers (p r : Port) (address : Uchar) (pdu : List Uchar) : Prop where
  accepted : (eMBASCIISend p address pdu.length).1 = .mbEnoerr
  sent : ∃ p', transmit (2 * (pdu.length + 2) + 4) (eMBASCIISend p address pdu.length).2 =
    some (p', frameChars (serialLine address pdu)) ∧ p'.eSndState = .txIdle
  received : ∃ r', receive (frameChars (serialLine address pdu)) r =
      some (r', List.replicate (2 * (pdu.length + 2) + 2) false ++ [true]) ∧
    eMBASCIIReceive r' = some (.ok (address, pdu.length)) ∧
      r'.frame (1 + pdu.length) = address :: pdu
  rejected : ∀ i < pdu.length + 2, ∀ b, some b ≠ (serialLine address pdu)[i]? →
    ∃ r', receive (frameChars ((serialLine address pdu).set i b)) r =
        some (r', List.replicate (2 * (pdu.length + 2) + 2) false ++ [true]) ∧
      eMBASCIIReceive r' = some (.error .mbEio)

/-- **What one port sends the other one receives**, in whatever state its receiver is. -/
theorem frame_received {p r : Port} {address : Uchar} {pdu : List Uchar}
    (hpdu : p.frame (1 + pdu.length) = p.ucASCIIBuf 0 :: pdu) (hrcv : p.eRcvState = .rxIdle)
    (hsnd : r.eSndState = .txIdle) (hlf : p.ucMBLFCharacter = mbAsciiDefaultLf)
    (hlf' : r.ucMBLFCharacter = mbAsciiDefaultLf) (hmin : 1 ≤ pdu.length)
    (hmax : pdu.length ≤ 253) : Delivers p r address pdu := by
  obtain ⟨hsent, hframe, hcount, hcur, hstart, hidle, hlf₁⟩ := send_frame address hpdu hrcv
  have hlength : (serialLine address pdu).length = pdu.length + 2 := by simp [serialLine]
  have hsum : (serialLine address pdu).sum = 0 := sum_append_lrc (address :: pdu)
  have hroom : (serialLine address pdu).length < mbSerPduSizeMax := by
    rw [hlength, mbSerPduSizeMax]
    omega
  have hleast : mbSerPduSizeMin ≤ (serialLine address pdu).length := by
    rw [hlength]
    exact Nat.add_le_add_right hmin 2
  refine ⟨hsent, ?_, ?_, ?_⟩
  · obtain ⟨p', htransmit, hdone⟩ := transmit_frame hidle hstart hcur (hlf₁.trans hlf)
    rw [hcount, hframe] at htransmit
    have hcalls : 1 + 2 * (pdu.length + 2) + 3 = 2 * (pdu.length + 2) + 4 := by omega
    rw [hcalls] at htransmit
    exact ⟨p', htransmit, hdone⟩
  · obtain ⟨r', hreceive, hpos, hgot, -, -⟩ := receive_frame hsnd hlf' (Nat.le_of_lt hroom)
    have hresult := receive_eq hpos hgot hroom hleast
    have hpart : r'.frame (1 + pdu.length) = address :: pdu := by
      rw [frame_take hgot (by rw [hlength]; omega), Nat.add_comm 1, serialLine]
      exact List.take_left' rfl
    have hfirst : r'.ucASCIIBuf 0 = address := by
      rw [Nat.add_comm, Port.frame, List.range_succ_eq_map] at hpart
      exact (List.cons_eq_cons.mp hpart).1
    rw [if_pos hsum, hlength, hfirst] at hresult
    rw [hlength] at hreceive
    exact ⟨r', hreceive, hresult, hpart⟩
  · intro i hi b hb
    have hi' : i < (serialLine address pdu).length := by rwa [hlength]
    have hlength' : ((serialLine address pdu).set i b).length = (serialLine address pdu).length :=
      List.length_set
    rw [List.getElem?_eq_getElem hi'] at hb
    have hsum' : ((serialLine address pdu).set i b).sum ≠ 0 := by
      rw [← hsum]
      exact sum_set_ne hi' fun heq => hb (congrArg some heq)
    obtain ⟨r', hreceive, hpos, hgot, -, -⟩ :=
      receive_frame hsnd hlf' (Nat.le_of_lt (hlength'.symm ▸ hroom))
    have hresult := receive_eq hpos hgot (hlength'.symm ▸ hroom) (hlength'.symm ▸ hleast)
    rw [if_neg hsum'] at hresult
    rw [hlength', hlength] at hreceive
    exact ⟨r', hreceive, hresult⟩

/-- The receiver waits for the end of another frame. -/
theorem frame_received_behind :
    Delivers (start fun i => [0x00, 0x03, 0x00, 0x6B, 0x00, 0x03].getD i 0)
      { start fun _ => 0 with eRcvState := .rxWaitEof } 0x11 [0x03, 0x00, 0x6B, 0x00, 0x03] :=
  frame_received rfl rfl rfl rfl (by decide) (by decide) (by decide)

/-! ## Runs of a port -/

/-- What a port is called for. A reply has at most `MB_PDU_SIZE_MAX` bytes; `eMBASCIISend` takes
them as they come. -/
inductive Event where
  | char (ucByte : Uchar)
  | ready
  | expired
  | send (ucSlaveAddress : Uchar) (usLength : Fin 254)

/-- The timer expires only when it is on. -/
def step (p : Port) : Event → Option Port
  | .char ucByte => (xMBASCIIReceiveFSM p ucByte).map Prod.fst
  | .ready => (xMBASCIITransmitFSM p).map Prod.fst
  | .expired => if p.timer then xMBASCIITimerT1SExpired p else none
  | .send ucSlaveAddress usLength => some (eMBASCIISend p ucSlaveAddress usLength).2

/-- What the handler of the timer asserts when it expires. -/
def TimerRight (p : Port) : Prop := p.timer = true ↔ p.eRcvState ≠ .rxIdle

/-- A carriage return that ends a frame is followed by a line feed, or by a colon. -/
def Ended (p : Port) : Event → Prop
  | .char ucByte => p.eRcvState = .rxWaitEof → ucByte = p.ucMBLFCharacter ∨ ucByte = colon
  | _ => True

/-- A digit that the port is in the middle of a byte for has room. -/
structure Bounded (buf : Nat → Uchar) (p : Port) : Prop where
  pos : p.eRcvState = .rxRcv → p.usRcvBufferPos ≤ mbSerPduSizeMax
  low : p.eRcvState = .rxRcv → p.eBytePos = .lowNibble → p.usRcvBufferPos < mbSerPduSizeMax
  kept : ∀ i, mbSerPduSizeMax ≤ i → p.ucASCIIBuf i = buf i

section
variable {p p' : Port} {buf : Nat → Uchar}

theorem put_kept (h : Bounded buf p) {i : Nat} (hi : i < mbSerPduSizeMax) (b : Uchar) {j : Nat}
    (hj : mbSerPduSizeMax ≤ j) : (p.put i b).ucASCIIBuf j = buf j := by
  have hne : j ≠ i := Nat.ne_of_gt (Nat.lt_of_lt_of_le hi hj)
  exact (if_neg hne).trans (h.kept j hj)

theorem Bounded.digit (h : Bounded buf p) (hrcv : p.eRcvState = .rxRcv) (n : Uchar) :
    Bounded buf (p.digit n) := by
  cases hbyte : p.eBytePos with
  | highNibble =>
    by_cases hroom : p.usRcvBufferPos < mbSerPduSizeMax
    · rw [digit_high hbyte hroom]
      exact ⟨h.pos, fun _ _ => hroom, fun j hj => put_kept h hroom _ hj⟩
    · have hfull : p.digit n = { p with eRcvState := .rxIdle, timer := false } := by
        rw [Port.digit, hbyte]
        exact if_neg hroom
      rw [hfull]
      exact ⟨nofun, nofun, h.kept⟩
  | lowNibble =>
    have hroom := h.low hrcv hbyte
    rw [digit_low hbyte]
    exact ⟨fun _ => hroom, nofun, fun j hj => put_kept h hroom _ hj⟩

theorem receiveFSM_bounded (h : Bounded buf p) {ch : Uchar} {r : Port × Bool}
    (hr : xMBASCIIReceiveFSM p ch = some r) : Bounded buf r.1 := by
  unfold xMBASCIIReceiveFSM at hr
  split at hr
  · split at hr
    · rename_i hrcv
      dsimp only at hr
      split at hr
      · cases hr
        exact ⟨fun _ => Nat.zero_le _, nofun, h.kept⟩
      · split at hr
        · cases hr
          exact ⟨nofun, nofun, h.kept⟩
        · cases hr
          have htimer : Bounded buf { p with timer := true } := ⟨h.pos, h.low, h.kept⟩
          exact htimer.digit hrcv _
    · split at hr
      · cases hr
        exact ⟨nofun, nofun, h.kept⟩
      · split at hr
        · cases hr
          exact ⟨fun _ => Nat.zero_le _, nofun, h.kept⟩
        · cases hr
          exact ⟨nofun, nofun, h.kept⟩
    · split at hr
      · cases hr
        exact ⟨fun _ => Nat.zero_le _, nofun, h.kept⟩
      · cases hr
        exact h
  · cases hr

/-- A state in which nothing is received. -/
theorem Bounded.of_idle (hrcv : p.eRcvState = .rxIdle)
    (hkept : ∀ i, mbSerPduSizeMax ≤ i → p.ucASCIIBuf i = buf i) : Bounded buf p := by
  refine ⟨fun h => ?_, fun h => ?_, hkept⟩
  · rw [hrcv] at h
    cases h
  · rw [hrcv] at h
    cases h

/-- The transmitter does nothing to the receiver. -/
theorem transmitFSM_spares {r : Port × Option Uchar} (hr : xMBASCIITransmitFSM p = some r) :
    p.eRcvState = .rxIdle ∧ r.1.eRcvState = .rxIdle ∧ r.1.ucASCIIBuf = p.ucASCIIBuf ∧
      r.1.timer = p.timer := by
  unfold xMBASCIITransmitFSM at hr
  split at hr
  · rename_i hidle
    refine ⟨hidle, ?_⟩
    split at hr
    · cases hr
      exact ⟨hidle, rfl, rfl⟩
    · split at hr
      · split at hr
        · obtain ⟨ch, -, rfl⟩ := Option.map_eq_some_iff.mp hr
          exact ⟨hidle, rfl, rfl⟩
        · obtain ⟨ch, -, rfl⟩ := Option.map_eq_some_iff.mp hr
          exact ⟨hidle, rfl, rfl⟩
      · cases hr
        exact ⟨hidle, rfl, rfl⟩
    · cases hr
      exact ⟨hidle, rfl, rfl⟩
    · cases hr
      exact ⟨hidle, rfl, rfl⟩
    · cases hr
      exact ⟨hidle, rfl, rfl⟩
  · cases hr

theorem send_spares (p : Port) (ucSlaveAddress : Uchar) (usLength : Nat) :
    let q := (eMBASCIISend p ucSlaveAddress usLength).2
    q.eRcvState = p.eRcvState ∧ q.timer = p.timer := by
  unfold eMBASCIISend
  split
  · exact ⟨rfl, rfl⟩
  · exact ⟨rfl, rfl⟩

theorem step_bounded (h : Bounded buf p) {e : Event} (hstep : step p e = some p') :
    Bounded buf p' := by
  cases e with
  | char ch =>
    obtain ⟨r, hr, rfl⟩ := Option.map_eq_some_iff.mp hstep
    exact receiveFSM_bounded h hr
  | ready =>
    obtain ⟨r, hr, rfl⟩ := Option.map_eq_some_iff.mp hstep
    obtain ⟨-, hidle, hbuf, -⟩ := transmitFSM_spares hr
    exact .of_idle hidle (hbuf ▸ h.kept)
  | expired =>
    obtain ⟨-, hexpired⟩ := Option.ite_none_right_eq_some.mp hstep
    unfold xMBASCIITimerT1SExpired at hexpired
    split at hexpired
    · cases hexpired
      exact ⟨nofun, nofun, h.kept⟩
    · cases hexpired
      exact ⟨nofun, nofun, h.kept⟩
    · cases hexpired
  | send address length =>
    obtain rfl := Option.some.inj hstep
    unfold eMBASCIISend
    split
    · rename_i hidle
      have hbound : 1 + length.val < mbSerPduSizeMax := by
        rw [mbSerPduSizeMax]
        omega
      have haddress : Bounded buf (p.put 0 address) :=
        ⟨h.pos, h.low, fun j hj => put_kept h (by decide) _ hj⟩
      exact .of_idle hidle fun j hj => put_kept haddress hbound _ hj
    · exact h

/-! ## The timer -/

theorem timerRight_of_rcv (hrcv : p.eRcvState ≠ .rxIdle) (ht : p.timer = true) : TimerRight p :=
  iff_of_true ht hrcv

theorem timerRight_of_idle (hrcv : p.eRcvState = .rxIdle) (ht : p.timer = false) :
    TimerRight p := by
  refine iff_of_false ?_ (not_not_intro hrcv)
  rw [ht]
  exact Bool.false_ne_true

theorem digit_timerRight (hrcv : p.eRcvState = .rxRcv) (ht : p.timer = true) (n : Uchar) :
    TimerRight (p.digit n) := by
  have hne : p.eRcvState ≠ .rxIdle := by rw [hrcv]; exact nofun
  unfold Port.digit
  split
  · split
    · exact timerRight_of_rcv hne ht
    · exact timerRight_of_idle rfl rfl
  · exact timerRight_of_rcv hne ht

/-- A character leaves the timer right if it ends no frame in the wrong way, and only then. -/
theorem receiveFSM_timerRight (h : TimerRight p) {ch : Uchar} {r : Port × Bool}
    (hr : xMBASCIIReceiveFSM p ch = some r) : TimerRight r.1 ↔ Ended p (.char ch) := by
  unfold xMBASCIIReceiveFSM at hr
  split at hr
  · split at hr
    · rename_i hrcv
      have hne : p.eRcvState ≠ .rxIdle := by rw [hrcv]; exact nofun
      have hended : Ended p (.char ch) := fun hwait => by
        rw [hrcv] at hwait
        cases hwait
      refine iff_of_true ?_ hended
      dsimp only at hr
      split at hr
      · cases hr
        exact timerRight_of_rcv hne rfl
      · split at hr
        · cases hr
          exact timerRight_of_rcv nofun rfl
        · cases hr
          exact @digit_timerRight { p with timer := true } hrcv rfl _
    · rename_i hrcv
      have ht : p.timer = true := h.mpr (by rw [hrcv]; exact nofun)
      split at hr
      · rename_i hlf
        cases hr
        exact iff_of_true (timerRight_of_idle rfl rfl) fun _ => .inl hlf
      · rename_i hlf
        split at hr
        · rename_i hcolon
          cases hr
          exact iff_of_true (timerRight_of_rcv nofun rfl) fun _ => .inr hcolon
        · rename_i hcolon
          cases hr
          refine iff_of_false (fun hright => hright.mp ht rfl) fun hended => ?_
          exact (hended hrcv).elim hlf hcolon
    · rename_i hrcv
      have hended : Ended p (.char ch) := fun hwait => by
        rw [hrcv] at hwait
        cases hwait
      refine iff_of_true ?_ hended
      split at hr
      · cases hr
        exact timerRight_of_rcv nofun rfl
      · cases hr
        exact h
  · cases hr

theorem step_timerRight (h : TimerRight p) {e : Event} (hstep : step p e = some p') :
    TimerRight p' ↔ Ended p e := by
  cases e with
  | char ch =>
    obtain ⟨r, hr, rfl⟩ := Option.map_eq_some_iff.mp hstep
    exact receiveFSM_timerRight h hr
  | ready =>
    obtain ⟨r, hr, rfl⟩ := Option.map_eq_some_iff.mp hstep
    obtain ⟨hidle, hidle', -, ht⟩ := transmitFSM_spares hr
    refine iff_of_true ?_ True.intro
    unfold TimerRight at h ⊢
    rw [hidle', ht]
    rwa [hidle] at h
  | expired =>
    obtain ⟨-, hexpired⟩ := Option.ite_none_right_eq_some.mp hstep
    refine iff_of_true ?_ True.intro
    unfold xMBASCIITimerT1SExpired at hexpired
    split at hexpired
    · cases hexpired
      exact timerRight_of_idle rfl rfl
    · cases hexpired
      exact timerRight_of_idle rfl rfl
    · cases hexpired
  | send address length =>
    obtain rfl := Option.some.inj hstep
    obtain ⟨hrcv, ht⟩ := send_spares p address length
    refine iff_of_true ?_ True.intro
    unfold TimerRight
    rw [hrcv, ht]
    exact h

end

/-- **When the timer's assertion holds**: in every state of a run in which each carriage return that
ends a frame is followed by a line feed or a colon, and in no other run's. One that comes while no
frame is being received may be followed by anything. -/
theorem timer_throughout_iff (buf : Nat → Uchar) (es : List Event) :
    Throughout step TimerRight (start buf) es ↔ Along step Ended (start buf) es :=
  throughout_iff_along (J := TimerRight) (fun _ h => h)
    (fun _ _ _ h hended hstep => (step_timerRight h hstep).mpr hended)
    (fun _ _ _ h hstep hright => (step_timerRight h hstep).mp hright)
    (timerRight_of_idle rfl rfl) es

/-- No run whose replies have at most `MB_PDU_SIZE_MAX` bytes writes behind the buffer. -/
theorem buffer_throughout (buf : Nat → Uchar) (es : List Event) :
    Throughout step (fun p => ∀ i, mbSerPduSizeMax ≤ i → p.ucASCIIBuf i = buf i) (start buf) es :=
  throughout_of_keep (J := Bounded buf) (fun _ h => h.kept)
    (fun _ _ _ h hstep => step_bounded h hstep) (.of_idle rfl fun _ _ => rfl) es

end ControlRTT.Net.ModbusAscii

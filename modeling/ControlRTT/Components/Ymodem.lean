import ControlRTT.Lib.CInt
import ControlRTT.Lib.Runs

/-! # Receiving a file by Ymodem (ymodem.c)

The receiver waits in one of its reads, for a code or for the rest of a packet, and goes on with
each byte that comes; nothing may come for longer than it waits. The sender numbers its packets and
sends the last one again where the acknowledgement is lost. The receiver checks that a number and
its complement agree but not which number it is, so what it delivers is the file exactly if no
packet of data has been sent again (`delivered_iff`). -/
namespace ControlRTT.Components.Ymodem
open ControlRTT.Lib.CInt ControlRTT.Lib.Runs

/-! ## Codes and packets -/

/-- `RYM_CODE_NONE`, which `_rym_read_code` also returns when nothing has come. -/
def codeNone : Byte := 0x00
def codeSoh : Byte := 0x01
def codeStx : Byte := 0x02
def codeEot : Byte := 0x04
def codeAck : Byte := 0x06
def codeNak : Byte := 0x15
def codeCan : Byte := 0x18
def codeC : Byte := 0x43

/-- `RYM_END_SESSION_SEND_CAN_NUM` -/
def endSessionSendCanNum : Nat := 7

inductive RymErr where
  | tmo
  | code
  | seq
  | crc
  | dsz
  | can
  deriving DecidableEq, Repr

inductive RymStage where
  | none
  | establishing
  | established
  | transmitting
  | finishing
  | finished
  deriving DecidableEq, Repr

def ccittTable : Array (BitVec 16) := #[
  0x0000, 0x1021, 0x2042, 0x3063, 0x4084, 0x50A5, 0x60C6, 0x70E7,
  0x8108, 0x9129, 0xA14A, 0xB16B, 0xC18C, 0xD1AD, 0xE1CE, 0xF1EF,
  0x1231, 0x0210, 0x3273, 0x2252, 0x52B5, 0x4294, 0x72F7, 0x62D6,
  0x9339, 0x8318, 0xB37B, 0xA35A, 0xD3BD, 0xC39C, 0xF3FF, 0xE3DE,
  0x2462, 0x3443, 0x0420, 0x1401, 0x64E6, 0x74C7, 0x44A4, 0x5485,
  0xA56A, 0xB54B, 0x8528, 0x9509, 0xE5EE, 0xF5CF, 0xC5AC, 0xD58D,
  0x3653, 0x2672, 0x1611, 0x0630, 0x76D7, 0x66F6, 0x5695, 0x46B4,
  0xB75B, 0xA77A, 0x9719, 0x8738, 0xF7DF, 0xE7FE, 0xD79D, 0xC7BC,
  0x48C4, 0x58E5, 0x6886, 0x78A7, 0x0840, 0x1861, 0x2802, 0x3823,
  0xC9CC, 0xD9ED, 0xE98E, 0xF9AF, 0x8948, 0x9969, 0xA90A, 0xB92B,
  0x5AF5, 0x4AD4, 0x7AB7, 0x6A96, 0x1A71, 0x0A50, 0x3A33, 0x2A12,
  0xDBFD, 0xCBDC, 0xFBBF, 0xEB9E, 0x9B79, 0x8B58, 0xBB3B, 0xAB1A,
  0x6CA6, 0x7C87, 0x4CE4, 0x5CC5, 0x2C22, 0x3C03, 0x0C60, 0x1C41,
  0xEDAE, 0xFD8F, 0xCDEC, 0xDDCD, 0xAD2A, 0xBD0B, 0x8D68, 0x9D49,
  0x7E97, 0x6EB6, 0x5ED5, 0x4EF4, 0x3E13, 0x2E32, 0x1E51, 0x0E70,
  0xFF9F, 0xEFBE, 0xDFDD, 0xCFFC, 0xBF1B, 0xAF3A, 0x9F59, 0x8F78,
  0x9188, 0x81A9, 0xB1CA, 0xA1EB, 0xD10C, 0xC12D, 0xF14E, 0xE16F,
  0x1080, 0x00A1, 0x30C2, 0x20E3, 0x5004, 0x4025, 0x7046, 0x6067,
  0x83B9, 0x9398, 0xA3FB, 0xB3DA, 0xC33D, 0xD31C, 0xE37F, 0xF35E,
  0x02B1, 0x1290, 0x22F3, 0x32D2, 0x4235, 0x5214, 0x6277, 0x7256,
  0xB5EA, 0xA5CB, 0x95A8, 0x8589, 0xF56E, 0xE54F, 0xD52C, 0xC50D,
  0x34E2, 0x24C3, 0x14A0, 0x0481, 0x7466, 0x6447, 0x5424, 0x4405,
  0xA7DB, 0xB7FA, 0x8799, 0x97B8, 0xE75F, 0xF77E, 0xC71D, 0xD73C,
  0x26D3, 0x36F2, 0x0691, 0x16B0, 0x6657, 0x7676, 0x4615, 0x5634,
  0xD94C, 0xC96D, 0xF90E, 0xE92F, 0x99C8, 0x89E9, 0xB98A, 0xA9AB,
  0x5844, 0x4865, 0x7806, 0x6827, 0x18C0, 0x08E1, 0x3882, 0x28A3,
  0xCB7D, 0xDB5C, 0xEB3F, 0xFB1E, 0x8BF9, 0x9BD8, 0xABBB, 0xBB9A,
  0x4A75, 0x5A54, 0x6A37, 0x7A16, 0x0AF1, 0x1AD0, 0x2AB3, 0x3A92,
  0xFD2E, 0xED0F, 0xDD6C, 0xCD4D, 0xBDAA, 0xAD8B, 0x9DE8, 0x8DC9,
  0x7C26, 0x6C07, 0x5C64, 0x4C45, 0x3CA2, 0x2C83, 0x1CE0, 0x0CC1,
  0xEF1F, 0xFF3E, 0xCF5D, 0xDF7C, 0xAF9B, 0xBFBA, 0x8FD9, 0x9FF8,
  0x6E17, 0x7E36, 0x4E55, 0x5E74, 0x2E93, 0x3EB2, 0x0ED1, 0x1EF0]

def crc16 (q : List Byte) : BitVec 16 :=
  q.foldl (fun crc b =>
    (crc <<< 8) ^^^ ccittTable.getD (((crc >>> 8) ^^^ b.setWidth 16) &&& 0xFF).toNat 0) 0

/-- What stands in a packet between its two numbers and the two bytes of the checksum; the code has
been read before. -/
def payloadOf (buf : List Byte) : List Byte := (buf.drop 2).take (buf.length - 4)

def recvCrc (buf : List Byte) : BitVec 16 :=
  buf.getD (buf.length - 2) 0 ++ buf.getD (buf.length - 1) 0

/-! ## The receiver -/

/-- Who reads the rest of a packet. -/
inductive Reader where
  | handshake
  | trans
  | fin
  deriving DecidableEq, Repr

/-- The read that the receiver waits in. In `handshake i` it has sent `C` for the `i`-th time,
counted from zero; in `data` it has `buf` of `len` bytes; `ended none` is `RT_EOK`. -/
inductive Phase where
  | handshake (i : Nat)
  | transCode
  | finEot
  | finSoh
  | data (r : Reader) (len : Nat) (buf : List Byte)
  | ended (err : Option RymErr)
  deriving DecidableEq, Repr

/-- `on_begin` and `on_data`; what `on_data` returns may depend on what it has got before. -/
structure Callbacks where
  onBegin : Option (List Byte → Byte) := none
  onData : Option (List (List Byte) → List Byte → Byte)

/-- `struct rym_ctx`, the codes that have been sent, and what `on_data` has been called with. -/
structure Rym where
  phase : Phase
  stage : RymStage
  sent : List Byte
  delivered : List (List Byte)
  deriving DecidableEq, Repr

namespace Rym

def goto (s : Rym) (p : Phase) : Rym := { s with phase := p }
def fail (s : Rym) (e : RymErr) : Rym := s.goto (.ended (some e))
def put (s : Rym) (codes : List Byte) : Rym := { s with sent := s.sent ++ codes }
def enter (s : Rym) (g : RymStage) : Rym := { s with stage := g }

/-- The loop of `_rym_do_handshake`, which goes on for `tmSec` rounds. -/
def handshakeCode (tmSec : Nat) (s : Rym) (i : Nat) (code : Byte) : Rym :=
  if code = codeSoh then s.goto (.data .handshake 132 [])
  else if code = codeStx then s.goto (.data .handshake 1028 [])
  else if i + 1 < tmSec then (s.put [codeC]).goto (.handshake (i + 1))
  else s.fail .tmo

/-- The beginning of `_rym_do_trans`. -/
def establish (s : Rym) : Rym := ((s.put [codeAck, codeC]).enter .established).goto .transCode

/-- The rest of `_rym_do_handshake`. -/
def handshakePacket (cb : Callbacks) (s : Rym) (buf : List Byte) : Rym :=
  if buf.getD 0 0 ≠ 0 ∨ buf.getD 1 0 ≠ 0xFF then s.fail .seq
  else if recvCrc buf ≠ crc16 (payloadOf buf) then s.fail .crc
  else if cb.onBegin.any fun onBegin => onBegin (payloadOf buf) ≠ codeAck then s.fail .can
  else s.establish

/-- The `switch` of `_rym_do_trans`; `EOT` leads to the beginning of `_rym_do_fin`. -/
def transCode (s : Rym) (code : Byte) : Rym :=
  if code = codeSoh then s.goto (.data .trans 132 [])
  else if code = codeStx then s.goto (.data .trans 1028 [])
  else if code = codeEot then ((s.enter .finishing).put [codeNak]).goto .finEot
  else s.fail .code

/-- What `_rym_do_trans` makes of the code of a packet that has been read. -/
def answer (s : Rym) (code : Byte) : Rym :=
  if code = codeCan then (s.put (List.replicate endSessionSendCanNum codeCan)).fail .can
  else if code = codeAck then (s.put [codeAck]).goto .transCode
  else s.goto .transCode

def onData (cb : Callbacks) (s : Rym) (payload : List Byte) : Rym :=
  match cb.onData with
  | none => s.answer codeAck
  | some onData =>
    { s with delivered := s.delivered ++ [payload] }.answer (onData s.delivered payload)

/-- The rest of `_rym_trans_data`. -/
def transPacket (cb : Callbacks) (s : Rym) (buf : List Byte) : Rym :=
  if (buf.getD 0 0).toNat + (buf.getD 1 0).toNat ≠ 0xFF then s.fail .seq
  else if s.stage = .established ∧ buf.getD 0 0 = 0 then s.answer codeNone
  else if recvCrc buf ≠ crc16 (payloadOf buf) then (s.enter .transmitting).fail .crc
  else (s.enter .transmitting).onData cb (payloadOf buf)

def finEot (s : Rym) (code : Byte) : Rym :=
  if code = codeEot then (s.put [codeAck, codeC]).goto .finSoh else s.fail .code

def finSoh (s : Rym) (code : Byte) : Rym :=
  if code = codeSoh then s.goto (.data .fin 132 []) else s.fail .code

/-- The rest of `_rym_do_fin`. -/
def finPacket (s : Rym) (buf : List Byte) : Rym :=
  if buf.getD 0 0 ≠ 0 ∨ buf.getD 1 0 ≠ 0xFF then s.fail .seq
  else if recvCrc buf ≠ crc16 (payloadOf buf) then s.fail .crc
  else ((s.enter .finished).put [codeAck]).goto (.ended none)

def packetRead (cb : Callbacks) (s : Rym) (buf : List Byte) : Reader → Rym
  | .handshake => s.handshakePacket cb buf
  | .trans => s.transPacket cb buf
  | .fin => s.finPacket buf

/-- A byte comes, or nothing for as long as the receiver waits. -/
def receive (cb : Callbacks) (tmSec : Nat) (s : Rym) (byte : Option Byte) : Rym :=
  match s.phase with
  | .handshake i => s.handshakeCode tmSec i (byte.getD codeNone)
  | .transCode => s.transCode (byte.getD codeNone)
  | .finEot => s.finEot (byte.getD codeNone)
  | .finSoh => s.finSoh (byte.getD codeNone)
  | .data r len buf =>
    match byte with
    | none => s.fail .dsz
    | some b =>
      if buf.length + 1 < len then s.goto (.data r len (buf ++ [b]))
      else s.packetRead cb (buf ++ [b]) r
  | .ended _ => s

def feed (cb : Callbacks) (tmSec : Nat) (s : Rym) (bytes : List (Option Byte)) : Rym :=
  bytes.foldl (receive cb tmSec) s

/-- `rym_recv_on_device` up to its first read. -/
def start (tmSec : Nat) : Rym where
  phase := if 0 < tmSec then .handshake 0 else .ended (some .tmo)
  stage := .establishing
  sent := if 0 < tmSec then [codeC] else []
  delivered := []

end Rym

/-! ## The sender -/

/-- What a packet carries: 128 bytes, or 1024. -/
structure Block where
  large : Bool
  payload : List Byte
  sized : payload.length = if large then 1024 else 128

def Block.code (b : Block) : Byte := if b.large then codeStx else codeSoh

/-- A packet behind its code. -/
def body (b : Block) (seq : Byte) : List Byte :=
  seq :: ~~~seq :: (b.payload ++
    [((crc16 b.payload) >>> 8).setWidth 8, (crc16 b.payload).setWidth 8])

def packet (b : Block) (seq : Byte) : List Byte := b.code :: body b seq

def nullBlock : Block := ⟨false, List.replicate 128 0, List.length_replicate⟩

/-- A file: the packet with its name, and its data. -/
structure File where
  header : Block
  data : List Block

/-- The packet of data at a place of the file; the first one has number 1. -/
def dataPacket (f : File) (i : Nat) : Option (List Byte) :=
  f.data[i]?.map fun b => packet b (BitVec.ofNat 8 (i + 1))

inductive Event where
  | silence
  | handshake
  | next
  | again
  | eot
  | null
  deriving DecidableEq, Repr

/-- How many packets of data have been sent, and how often one was sent again. -/
structure Sender where
  begun : Bool := false
  packets : Nat := 0
  resent : Nat := 0
  ended : Bool := false
  deriving DecidableEq, Repr

/-- What a sender may do, and what it sends. -/
def Sender.send (f : File) (s : Sender) : Event → Option (Sender × List (Option Byte))
  | .silence => some (s, [none])
  | .handshake =>
    if s.packets = 0 ∧ !s.ended then some ({ s with begun := true }, (packet f.header 0).map some)
    else none
  | .next =>
    if s.begun ∧ !s.ended then
      (dataPacket f s.packets).map fun bytes =>
        ({ s with packets := s.packets + 1 }, bytes.map some)
    else none
  | .again =>
    if 0 < s.packets ∧ !s.ended then
      (dataPacket f (s.packets - 1)).map fun bytes =>
        ({ s with resent := s.resent + 1 }, bytes.map some)
    else none
  | .eot =>
    if s.begun ∧ s.packets = f.data.length then some ({ s with ended := true }, [some codeEot])
    else none
  | .null => if s.ended then some (s, (packet nullBlock 0).map some) else none

structure Transfer where
  sender : Sender
  receiver : Rym
  deriving DecidableEq, Repr

def step (f : File) (cb : Callbacks) (tmSec : Nat) (t : Transfer) (e : Event) : Option Transfer :=
  (t.sender.send f e).map fun (sender, bytes) => ⟨sender, t.receiver.feed cb tmSec bytes⟩

def start (tmSec : Nat) : Transfer := ⟨{}, Rym.start tmSec⟩

/-! ## Reading a packet -/

theorem packetRead_goto (cb : Callbacks) (s : Rym) (p : Phase) (buf : List Byte) (r : Reader) :
    (s.goto p).packetRead cb buf r = s.packetRead cb buf r := by
  cases r <;> rfl

section
variable {cb : Callbacks} {tmSec len : Nat} {s : Rym} {r : Reader} {buf bytes : List Byte}

theorem feed_cons (s : Rym) (b : Option Byte) (bs : List (Option Byte)) :
    s.feed cb tmSec (b :: bs) = (s.receive cb tmSec b).feed cb tmSec bs := rfl

theorem feed_ended {err : Option RymErr} (h : s.phase = .ended err) (bs : List (Option Byte)) :
    s.feed cb tmSec bs = s := by
  induction bs with
  | nil => rfl
  | cons b bs ih =>
    have hstays : s.receive cb tmSec b = s := by
      unfold Rym.receive
      rw [h]
    rw [feed_cons, hstays, ih]

/-- The rest of a packet, byte for byte. -/
theorem feed_data (h : s.phase = .data r len buf) (hne : bytes ≠ [])
    (hlen : buf.length + bytes.length = len) :
    s.feed cb tmSec (bytes.map some) = s.packetRead cb (buf ++ bytes) r := by
  induction bytes generalizing s buf with
  | nil => exact absurd rfl hne
  | cons b bs ih =>
    rw [List.length_cons] at hlen
    rw [List.map_cons, feed_cons]
    unfold Rym.receive
    rw [h]
    dsimp only
    cases bs with
    | nil =>
      rw [if_neg (by rw [← hlen]; exact lt_irrefl _)]
      rfl
    | cons b' bs =>
      rw [List.length_cons] at hlen
      have hmore : (buf ++ [b]).length + (b' :: bs).length = len := by
        rw [List.length_append, List.length_singleton, List.length_cons]
        omega
      rw [if_pos (by omega), ih rfl (List.cons_ne_nil _ _) hmore, packetRead_goto,
        List.append_assoc, List.singleton_append]

end

/-! ## What a packet reads as -/

theorem length_body (b : Block) (seq : Byte) :
    (body b seq).length = if b.large then 1028 else 132 := by
  unfold body
  rw [List.length_cons, List.length_cons, List.length_append, b.sized]
  split <;> rfl

theorem payloadOf_body (b : Block) (seq : Byte) : payloadOf (body b seq) = b.payload := by
  unfold payloadOf body
  rw [List.drop_succ_cons, List.drop_succ_cons, List.drop_zero, List.length_cons, List.length_cons,
    List.length_append]
  exact List.take_left

theorem crc_bytes (c : BitVec 16) : (c >>> 8).setWidth 8 ++ c.setWidth 8 = c := by
  refine BitVec.eq_of_getLsbD_eq fun i hi => ?_
  rw [BitVec.getLsbD_append, BitVec.getLsbD_setWidth, BitVec.getLsbD_setWidth,
    BitVec.getLsbD_ushiftRight]
  by_cases hlow : i < 8
  · simp [hlow]
  · simp [hlow, show i - 8 < 8 by omega, show 8 + (i - 8) = i by omega]

theorem recvCrc_body (b : Block) (seq : Byte) : recvCrc (body b seq) = crc16 b.payload := by
  have hlast : ∀ (l : List Byte) (hi lo : Byte),
      recvCrc (l ++ [hi, lo]) = hi ++ lo := fun l hi lo => by
    unfold recvCrc
    simp [List.getD_eq_getElem?_getD]
  exact (hlast (seq :: ~~~seq :: b.payload) _ _).trans (crc_bytes _)

theorem sum_body (b : Block) (seq : Byte) :
    ((body b seq).getD 0 0).toNat + ((body b seq).getD 1 0).toNat = 0xFF := by
  change seq.toNat + (~~~seq).toNat = 0xFF
  rw [BitVec.toNat_not]
  have hlt := seq.isLt
  omega

section
variable {cb : Callbacks} {tmSec : Nat} {r : Rym} {k : Reader} {b : Block} {seq : Byte}

theorem feed_packet
    (h : r.receive cb tmSec (some b.code) = r.goto (.data k (body b seq).length [])) :
    r.feed cb tmSec ((packet b seq).map some) = r.packetRead cb (body b seq) k := by
  have hne : body b seq ≠ [] := List.cons_ne_nil _ _
  unfold packet
  rw [List.map_cons, feed_cons, h, feed_data rfl hne (Nat.zero_add _), packetRead_goto,
    List.nil_append]

theorem feed_trans (h : r.phase = .transCode) :
    r.feed cb tmSec ((packet b seq).map some) = r.transPacket cb (body b seq) := by
  refine feed_packet (k := .trans) ?_
  unfold Rym.receive Block.code
  rw [h, length_body]
  cases b.large <;> rfl

theorem feed_handshake {i : Nat} (h : r.phase = .handshake i) :
    r.feed cb tmSec ((packet b seq).map some) = r.handshakePacket cb (body b seq) := by
  refine feed_packet (k := .handshake) ?_
  unfold Rym.receive Block.code
  rw [h, length_body]
  cases b.large <;> rfl

theorem feed_fin (h : r.phase = .finSoh) :
    r.feed cb tmSec ((packet nullBlock seq).map some) = r.finPacket (body nullBlock seq) := by
  refine feed_packet (k := .fin) ?_
  unfold Rym.receive
  rw [h, length_body]
  rfl

/-- The packet of the handshake is read again, and nothing is made of it. -/
theorem transPacket_repeated (h : r.stage = .established) :
    r.transPacket cb (body b 0) = r.goto .transCode := by
  unfold Rym.transPacket
  rw [if_neg (not_not_intro (sum_body b 0)), if_pos ⟨h, rfl⟩]
  rfl

theorem transPacket_data (h : ¬(r.stage = .established ∧ seq = 0)) :
    r.transPacket cb (body b seq) = (r.enter .transmitting).onData cb b.payload := by
  unfold Rym.transPacket
  rw [if_neg (not_not_intro (sum_body b seq)),
    if_neg (show ¬(r.stage = .established ∧ (body b seq).getD 0 0 = 0) from h), payloadOf_body,
    if_neg (not_not_intro (recvCrc_body b seq))]

theorem handshakePacket_cases (cb : Callbacks) (r : Rym) (b : Block) :
    r.handshakePacket cb (body b 0) = r.fail .can ∨
      r.handshakePacket cb (body b 0) = r.establish := by
  unfold Rym.handshakePacket
  rw [if_neg (by rintro (h | h) <;> exact h rfl), payloadOf_body,
    if_neg (not_not_intro (recvCrc_body b 0))]
  split
  · exact .inl rfl
  · exact .inr rfl

theorem finPacket_null : r.finPacket (body nullBlock 0) =
    ((r.enter .finished).put [codeAck]).goto (.ended none) := by
  unfold Rym.finPacket
  rw [if_neg (by rintro (h | h) <;> exact h rfl), payloadOf_body,
    if_neg (not_not_intro (recvCrc_body nullBlock 0))]

theorem answer_cases (r : Rym) (code : Byte) :
    ((r.answer code).phase = .transCode ∨ (r.answer code).phase = .ended (some .can)) ∧
      (r.answer code).stage = r.stage ∧ (r.answer code).delivered = r.delivered := by
  unfold Rym.answer
  split
  · exact ⟨.inr rfl, rfl, rfl⟩
  · split
    · exact ⟨.inl rfl, rfl, rfl⟩
    · exact ⟨.inl rfl, rfl, rfl⟩

theorem onData_cases {g : List (List Byte) → List Byte → Byte} (hcb : cb.onData = some g)
    (r : Rym) (payload : List Byte) :
    ((r.onData cb payload).phase = .transCode ∨ (r.onData cb payload).phase = .ended (some .can)) ∧
      (r.onData cb payload).stage = r.stage ∧
      (r.onData cb payload).delivered = r.delivered ++ [payload] := by
  unfold Rym.onData
  rw [hcb]
  exact answer_cases _ _

end

/-! ## The receiver keeps up with the sender -/

/-- What has been delivered when the sender has got so far. -/
structure Delivers (f : File) (s : Sender) (out : List (List Byte)) : Prop where
  atLeast : ((f.data.take s.packets).map Block.payload).flatten.length + 128 * s.resent ≤
    out.flatten.length
  exact : s.resent = 0 → out = (f.data.take s.packets).map Block.payload

/-- The receiver has failed, or waits for what the sender sends next. -/
inductive Sync (f : File) (s : Sender) (r : Rym) : Prop where
  | handshake {i : Nat} (phase : r.phase = .handshake i) (begun : s.begun = false)
      (packets : s.packets = 0) (ended : s.ended = false) (delivers : Delivers f s r.delivered)
  | trans (phase : r.phase = .transCode) (begun : s.begun = true) (ended : s.ended = false)
      (stage : r.stage = if s.packets = 0 then .established else .transmitting)
      (delivers : Delivers f s r.delivered)
  | fin (phase : r.phase = .finEot ∨ r.phase = .finSoh ∨ r.phase = .ended none)
      (ended : s.ended = true) (all : s.packets = f.data.length)
      (delivers : Delivers f s r.delivered)
  | failed {e : RymErr} (phase : r.phase = .ended (some e))

section
variable {f : File} {cb : Callbacks} {tmSec : Nat} {s s' : Sender} {r r' : Rym} {b : Block}
  {bytes : List (Option Byte)} {out : List (List Byte)}

theorem length_payload (b : Block) : 128 ≤ b.payload.length := by
  rw [b.sized]
  split <;> decide

theorem Delivers.next (h : Delivers f s out) (hb : f.data[s.packets]? = some b) :
    Delivers f { s with packets := s.packets + 1 } (out ++ [b.payload]) := by
  have htake : (f.data.take (s.packets + 1)).map Block.payload =
      (f.data.take s.packets).map Block.payload ++ [b.payload] := by
    rw [List.take_add_one, hb, List.map_append]
    rfl
  constructor
  · change ((f.data.take (s.packets + 1)).map Block.payload).flatten.length + 128 * s.resent ≤ _
    rw [htake, List.flatten_append, List.flatten_append, List.length_append, List.length_append]
    have hleast := h.atLeast
    omega
  · intro hfirst
    exact (congrArg (· ++ [b.payload]) (h.exact hfirst)).trans htake.symm

/-- A packet that comes again is delivered again. -/
theorem Delivers.again (h : Delivers f s out) (b : Block) :
    Delivers f { s with resent := s.resent + 1 } (out ++ [b.payload]) := by
  refine ⟨?_, fun hfirst => absurd hfirst (Nat.succ_ne_zero _)⟩
  change ((f.data.take s.packets).map Block.payload).flatten.length + 128 * (s.resent + 1) ≤ _
  rw [List.flatten_append, List.length_append, List.flatten_singleton]
  have hleast := h.atLeast
  have hlen := length_payload b
  omega

theorem Delivers.congr (h : Delivers f s out) (hpackets : s'.packets = s.packets)
    (hresent : s'.resent = s.resent) : Delivers f s' out :=
  ⟨by rw [hpackets, hresent]; exact h.atLeast, fun hfirst => by
    rw [hpackets]
    exact h.exact (hresent ▸ hfirst)⟩

theorem Sync.of_fail {e : RymErr} (bs : List (Option Byte)) :
    Sync f s ((r.fail e).feed cb tmSec bs) := by
  rw [feed_ended rfl]
  exact .failed rfl

/-- The sender waits, and so does the receiver. -/
theorem Sync.silence (h : Sync f s r) : Sync f s (r.receive cb tmSec none) := by
  unfold Rym.receive
  cases h with
  | @handshake i phase begun packets ended delivers =>
    rw [phase]
    change Sync f s (if i + 1 < tmSec then _ else _)
    split
    · exact .handshake rfl begun packets ended delivers
    · exact .failed rfl
  | trans phase => rw [phase]; exact .failed rfl
  | fin phase ended all delivers =>
    obtain phase | phase | phase := phase
    · rw [phase]; exact .failed rfl
    · rw [phase]; exact .failed rfl
    · rw [phase]; exact .fin (.inr (.inr phase)) ended all delivers
  | failed phase => rw [phase]; exact .failed phase

theorem Sync.ofHandshake (h : Sync f s r) (hpackets : s.packets = 0) (hended : s.ended = false) :
    Sync f { s with begun := true } (r.feed cb tmSec ((packet f.header 0).map some)) := by
  cases h with
  | handshake phase begun packets ended delivers =>
    rw [feed_handshake phase]
    obtain heq | heq := handshakePacket_cases cb r f.header
    · rw [heq]
      exact .failed rfl
    · rw [heq]
      exact .trans rfl rfl ended (if_pos packets).symm (delivers.congr rfl rfl)
  | trans phase begun ended stage delivers =>
    rw [feed_trans phase, transPacket_repeated (stage.trans (if_pos hpackets))]
    exact .trans rfl rfl ended stage (delivers.congr rfl rfl)
  | fin phase ended => cases hended.symm.trans ended
  | failed phase => rw [feed_ended phase]; exact .failed phase

/-- A packet of data, the next one or one that comes again. -/
theorem Sync.ofData {g : List (List Byte) → List Byte → Byte} {i : Nat} (hcb : cb.onData = some g)
    (h : Sync f s r) (hbegun : s.begun = true ∨ 0 < s.packets) (hended : s.ended = false)
    (hi : s.packets = 0 → i = 0) (hsender : s'.begun = s.begun ∧ s'.ended = s.ended)
    (hpackets : s'.packets ≠ 0)
    (hdelivers : Delivers f s r.delivered → Delivers f s' (r.delivered ++ [b.payload])) :
    Sync f s' (r.feed cb tmSec ((packet b (BitVec.ofNat 8 (i + 1))).map some)) := by
  cases h with
  | handshake _ begun packets =>
    obtain hbegun | hsome := hbegun
    · cases hbegun.symm.trans begun
    · exact absurd packets (Nat.ne_of_gt hsome)
  | trans phase begun ended stage delivers =>
    have hfresh : ¬(r.stage = .established ∧ BitVec.ofNat 8 (i + 1) = 0) := by
      rintro ⟨hstage, hseq⟩
      rw [stage] at hstage
      split at hstage
      · rename_i hzero
        rw [hi hzero] at hseq
        cases hseq
      · cases hstage
    rw [feed_trans phase, transPacket_data hfresh]
    obtain ⟨hphase, hstage, hout⟩ := onData_cases hcb (r.enter .transmitting) b.payload
    obtain hphase | hphase := hphase
    · refine .trans hphase (hsender.1.trans begun) (hsender.2.trans ended) ?_ ?_
      · exact hstage.trans (if_neg hpackets).symm
      · rw [hout]
        exact hdelivers delivers
    · exact .failed hphase
  | fin _ ended => cases hended.symm.trans ended
  | failed phase => rw [feed_ended phase]; exact .failed phase

theorem Sync.eot (h : Sync f s r) (hbegun : s.begun = true) (hall : s.packets = f.data.length) :
    Sync f { s with ended := true } (r.receive cb tmSec (some codeEot)) := by
  unfold Rym.receive
  cases h with
  | handshake _ begun => cases hbegun.symm.trans begun
  | trans phase _ _ _ delivers =>
    rw [phase]
    exact .fin (.inl rfl) rfl hall (delivers.congr rfl rfl)
  | fin phase _ all delivers =>
    obtain phase | phase | phase := phase
    · rw [phase]
      exact .fin (.inr (.inl rfl)) rfl all (delivers.congr rfl rfl)
    · rw [phase]
      exact .failed rfl
    · rw [phase]
      exact .fin (.inr (.inr phase)) rfl all (delivers.congr rfl rfl)
  | failed phase => rw [phase]; exact .failed phase

theorem Sync.null (h : Sync f s r) (hended : s.ended = true) :
    Sync f s (r.feed cb tmSec ((packet nullBlock 0).map some)) := by
  cases h with
  | handshake _ _ _ ended => cases hended.symm.trans ended
  | trans _ _ ended => cases hended.symm.trans ended
  | fin phase ended all delivers =>
    obtain phase | phase | phase := phase
    · -- the receiver still waits for the second `EOT`
      have hcode : r.receive cb tmSec (some nullBlock.code) = r.fail .code := by
        unfold Rym.receive
        rw [phase]
        rfl
      unfold packet
      rw [List.map_cons, feed_cons, hcode]
      exact .of_fail _
    · rw [feed_fin phase, finPacket_null]
      exact .fin (.inr (.inr rfl)) ended all delivers
    · rw [feed_ended phase]
      exact .fin (.inr (.inr phase)) ended all delivers
  | failed phase => rw [feed_ended phase]; exact .failed phase

theorem Sync.step {g : List (List Byte) → List Byte → Byte} (hcb : cb.onData = some g)
    {t t' : Transfer} {e : Event} (h : Sync f t.sender t.receiver)
    (hstep : step f cb tmSec t e = some t') : Sync f t'.sender t'.receiver := by
  obtain ⟨⟨s', bytes⟩, hsend, rfl⟩ := Option.map_eq_some_iff.mp hstep
  cases e with
  | silence =>
    cases hsend
    change Sync f t.sender (t.receiver.receive cb tmSec none)
    exact h.silence
  | handshake =>
    obtain ⟨⟨hpackets, hended⟩, heq⟩ := Option.ite_none_right_eq_some.mp hsend
    cases heq
    exact h.ofHandshake hpackets (by simpa using hended)
  | next =>
    obtain ⟨⟨hbegun, hended⟩, heq⟩ := Option.ite_none_right_eq_some.mp hsend
    obtain ⟨packet, hpacket, heq⟩ := Option.map_eq_some_iff.mp heq
    obtain ⟨b, hb, rfl⟩ := Option.map_eq_some_iff.mp hpacket
    cases heq
    exact h.ofData hcb (.inl hbegun) (by simpa using hended) id ⟨rfl, rfl⟩ (Nat.succ_ne_zero _)
      fun hdelivers => hdelivers.next hb
  | again =>
    obtain ⟨⟨hpackets, hended⟩, heq⟩ := Option.ite_none_right_eq_some.mp hsend
    obtain ⟨packet, hpacket, heq⟩ := Option.map_eq_some_iff.mp heq
    obtain ⟨b, -, rfl⟩ := Option.map_eq_some_iff.mp hpacket
    cases heq
    exact h.ofData hcb (.inr hpackets) (by simpa using hended)
      (fun hzero => absurd hzero (Nat.ne_of_gt hpackets)) ⟨rfl, rfl⟩ (Nat.ne_of_gt hpackets)
      fun hdelivers => hdelivers.again b
  | eot =>
    obtain ⟨⟨hbegun, hall⟩, heq⟩ := Option.ite_none_right_eq_some.mp hsend
    cases heq
    change Sync f _ (t.receiver.receive cb tmSec (some codeEot))
    exact h.eot hbegun hall
  | null =>
    obtain ⟨hended, heq⟩ := Option.ite_none_right_eq_some.mp hsend
    obtain ⟨hs, hbytes⟩ := Prod.ext_iff.mp (Option.some.inj heq)
    change Sync f s' (t.receiver.feed cb tmSec bytes)
    rw [← show _ = s' from hs, ← show _ = bytes from hbytes]
    exact h.null hended

end

theorem sync_start (f : File) (tmSec : Nat) :
    Sync f (start tmSec).sender (start tmSec).receiver := by
  have hnone : Delivers f {} [] := ⟨Nat.zero_le _, fun _ => rfl⟩
  unfold start Rym.start
  by_cases htm : 0 < tmSec
  · exact .handshake (if_pos htm) rfl rfl rfl hnone
  · exact .failed (if_neg htm)

theorem resent_step {f : File} {cb : Callbacks} {tmSec : Nat} {t t' : Transfer} {e : Event}
    (hstep : step f cb tmSec t e = some t') :
    t'.sender.resent = t.sender.resent + if e = .again then 1 else 0 := by
  obtain ⟨⟨s', bytes⟩, hsend, rfl⟩ := Option.map_eq_some_iff.mp hstep
  cases e with
  | silence =>
    cases hsend
    rfl
  | handshake | eot =>
    obtain ⟨-, heq⟩ := Option.ite_none_right_eq_some.mp hsend
    cases heq
    rfl
  | next | again =>
    obtain ⟨-, heq⟩ := Option.ite_none_right_eq_some.mp hsend
    obtain ⟨_, -, heq⟩ := Option.map_eq_some_iff.mp heq
    cases heq
    rfl
  | null =>
    obtain ⟨-, heq⟩ := Option.ite_none_right_eq_some.mp hsend
    simp only [Option.some.injEq, Prod.mk.injEq] at heq
    exact congrArg Sender.resent heq.1.symm

/-- How often the sender has sent a packet again. -/
theorem resent_run {f : File} {cb : Callbacks} {tmSec : Nat} {es : List Event} {t t' : Transfer}
    (hrun : run (step f cb tmSec) t es = some t') :
    t'.sender.resent = t.sender.resent + es.count .again := by
  induction es generalizing t with
  | nil => cases hrun; rfl
  | cons e es ih =>
    obtain ⟨u, hstep, hrun⟩ := Option.bind_eq_some_iff.mp hrun
    rw [ih hrun, resent_step hstep, List.count_cons, Nat.add_assoc, Nat.add_comm (es.count _)]
    simp only [beq_iff_eq]

/-- A transfer that ends with `RT_EOK` has delivered the file exactly if no packet of data was
sent again. -/
theorem delivered_iff (f : File) (onBegin : Option (List Byte → Byte))
    (onData : List (List Byte) → List Byte → Byte) (tmSec : Nat) {es : List Event} {t : Transfer}
    (hrun : run (step f ⟨onBegin, some onData⟩ tmSec) (start tmSec) es = some t)
    (hok : t.receiver.phase = .ended none) :
    t.receiver.delivered.flatten = (f.data.map Block.payload).flatten ↔ .again ∉ es := by
  have hsync : Sync f t.sender t.receiver :=
    run_invariant (J := fun u => Sync f u.sender u.receiver)
      (fun _ _ _ h hstep => h.step rfl hstep) (sync_start f tmSec) hrun
  have hcount : t.sender.resent = es.count .again := (resent_run hrun).trans (Nat.zero_add _)
  rw [← List.count_eq_zero, ← hcount]
  cases hsync with
  | handshake phase => cases hok.symm.trans phase
  | trans phase => cases hok.symm.trans phase
  | failed phase => cases hok.symm.trans phase
  | fin _ _ all delivers =>
    obtain ⟨hleast, hexact⟩ := delivers
    rw [all, List.take_length] at hleast hexact
    constructor
    · intro heq
      rw [heq] at hleast
      omega
    · intro hnone
      rw [hexact hnone]

def smallFile : File := ⟨nullBlock, [nullBlock]⟩

def smallRun (again : List Event) : List Event :=
  [Event.handshake, .handshake, .next] ++ again ++ [Event.eot, .eot, .null]

def pairFile : File :=
  ⟨nullBlock, [nullBlock, ⟨false, List.replicate 128 1, List.length_replicate⟩]⟩

/-- A file of two packets; the packet of the handshake comes twice. -/
theorem delivered_iff_pair : ∃ t,
    run (step pairFile ⟨none, some fun _ _ => codeAck⟩ 10) (start 10)
      [.handshake, .handshake, .next, .next, .eot, .eot, .null] = some t ∧
    (t.receiver.delivered.flatten = (pairFile.data.map Block.payload).flatten ↔
      Event.again ∉ [.handshake, .handshake, .next, .next, .eot, .eot, .null]) := by
  have hrun : (run (step pairFile ⟨none, some fun _ _ => codeAck⟩ 10) (start 10)
      [.handshake, .handshake, .next, .next, .eot, .eot, .null]).any
        (·.receiver.phase = .ended none) := by
    decide +kernel
  obtain ⟨t, ht, hok⟩ := (Option.any_eq_true _ _).mp hrun
  exact ⟨t, ht, delivered_iff pairFile none _ 10 ht (by simpa using hok)⟩

/-- The acknowledgement of the packet is lost, and the packet is delivered twice. -/
theorem delivered_twice :
    (run (step smallFile ⟨none, some fun _ _ => codeAck⟩ 10) (start 10) (smallRun [.again])).any
      fun t => t.receiver.phase = .ended none ∧
        t.receiver.delivered.flatten ≠ (smallFile.data.map Block.payload).flatten := by
  decide +kernel

end ControlRTT.Components.Ymodem

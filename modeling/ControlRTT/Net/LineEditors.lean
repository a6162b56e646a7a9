import ControlRTT.Net.Client
import ControlRTT.Lib.Runs

/-! # The lines of AT commands (at_server.c, at_cli.c)

`server_parser` puts what it reads into `recv_buffer` until the end mark is in it, and copies the
name of the command into an array of its own; `client_cli_parser` collects a line and sends it.
Neither checks a length, so how far they write depends on what is typed. `Typing` is the line
being typed, without a buffer, and the parsers stay inside their arrays exactly if the lines are
short enough (`inBounds_along_iff`). -/
namespace ControlRTT.Net.LineEditors
open ControlRTT.Lib ControlRTT.Lib.CInt ControlRTT.Lib.Runs ControlRTT.Net.Client

/-- `AT_SERVER_RECV_BUFF_LEN`, the size of `recv_buffer`. -/
def atServerRecvBuffLen : Nat := 256

/-- `AT_CMD_NAME_LEN`, the size of `cur_cmd_name`. -/
def atCmdNameLen : Nat := 16

def atCmdCr : Byte := 0x0D
def atCmdLf : Byte := 0x0A
def escKey : Byte := 0x1B
def backspaceKey : Byte := 0x08
def delectKey : Byte := 0x7F

def ascii (s : String) : List Byte := s.toList.map fun c => BitVec.ofNat 8 c.toNat

/-- `AT_CMD_END_MARK` as it is configured; the command line interface sets it to `"\r"`. -/
inductive EndMark where
  | crlf
  | cr
  | lf
  deriving DecidableEq, Repr

def EndMark.bytes : EndMark → List Byte
  | .crlf => [atCmdCr, atCmdLf]
  | .cr => [atCmdCr]
  | .lf => [atCmdLf]

inductive AtResult where
  | ok
  | faile
  | null
  | cmdErr
  | checkFaile
  | parseFaile
  deriving DecidableEq, Repr

def printfln (text : String) : List Byte := ascii text ++ [atCmdCr, atCmdLf]

def atServerPrintResult : AtResult → List Byte
  | .ok => printfln "" ++ printfln "OK"
  | .faile => printfln "" ++ printfln "ERROR"
  | .null => []
  | .cmdErr => printfln "ERR CMD MATCH FAILED!" ++ printfln "" ++ printfln "ERROR"
  | .checkFaile => printfln "ERR CHECK ARGS FORMAT FAILED!" ++ printfln "" ++ printfln "ERROR"
  | .parseFaile => printfln "ERR PARSE ARGS FAILED!" ++ printfln "" ++ printfln "ERROR"

/-- What a function of a command makes of `echo_mode`: its result, what it prints, and the mode it
leaves. -/
abbrev Callback := Bool → AtResult × List Byte × Bool

/-- `struct at_cmd`; a command that has a `setup` also has the expression it is checked with. -/
structure AtCmd where
  name : List Byte
  test : Option Callback := none
  query : Option Callback := none
  setup : Option (List Byte × (List Byte → Callback)) := none
  exec : Option Callback := none

def atCheckArgs (args argsFormat : List Byte) : Bool :=
  let leftSq := argsFormat.count 0x5B
  let rightSq := argsFormat.count 0x5D
  let leftAngle := argsFormat.count 0x3C
  let rightAngle := argsFormat.count 0x3E
  let commaMarkNum := args.count 0x2C
  leftSq = rightSq && leftAngle = rightAngle && leftSq ≤ leftAngle &&
    leftAngle - leftSq ≤ commaMarkNum + 1 && commaMarkNum + 1 ≤ leftAngle

def isDigit (b : Byte) : Bool := 0x30 ≤ b && b ≤ 0x39

/-- A function of the command is called, or there is none. -/
def call (f : Option Callback) (echo : Bool) : List Byte × Bool :=
  match f with
  | none => (atServerPrintResult .cmdErr, echo)
  | some f =>
    let (result, printed, echo) := f echo
    (printed ++ atServerPrintResult result, echo)

/-- What is printed, and the echo mode afterwards; `parser` does the same whatever is returned. -/
def atCmdProcess (cmd : AtCmd) (args : List Byte) (echo : Bool) : List Byte × Bool :=
  if [0x3D, 0x3F, atCmdCr].isPrefixOf args then call cmd.test echo
  else if [0x3F, atCmdCr].isPrefixOf args then call cmd.query echo
  else if args[0]? = some 0x3D ∨ args[0]?.any isDigit ∧ args[1]? = some atCmdCr then
    match cmd.setup with
    | none => (atServerPrintResult .cmdErr, echo)
    | some (argsExpr, setup) =>
      if atCheckArgs args argsExpr then call (some (setup args)) echo
      else (atServerPrintResult .checkFaile, echo)
  else if args[0]? = some atCmdCr then call cmd.exec echo
  else ([], echo)

def toLower (b : Byte) : Byte := if 0x41 ≤ b ∧ b ≤ 0x5A then b + 0x20 else b

/-- The first command of that name; `strcasecmp` does not tell capitals from small letters. -/
def atFindCmd (cmdTable : List AtCmd) (cmd : List Byte) : Option AtCmd :=
  cmdTable.find? fun c => cmd.map toLower = c.name.map toLower

/-- What ends the name of a command. -/
def endsName (b : Byte) : Bool := b = 0x3F || b = 0x3D || b = atCmdCr || isDigit b

/-- The bytes that `memcpy` copies to `cmd_name`; a terminator is stored behind them. -/
def atCmdGetName (cmdBuffer : List Byte) : Option (List Byte) :=
  let text := CString.text 0 cmdBuffer
  (text.findIdx? endsName).map text.take

/-- What is made of a line: what is printed, and the echo mode afterwards. -/
def execute (cmdTable : List AtCmd) (cmdBuffer : List Byte) (echo : Bool) : List Byte × Bool :=
  match (atCmdGetName cmdBuffer).bind fun name => (atFindCmd cmdTable name).map (name, ·) with
  | none => (atServerPrintResult .cmdErr, echo)
  | some (name, cmd) =>
    atCmdProcess cmd ((CString.text 0 cmdBuffer).drop (CString.text 0 name).length) echo

/-- `struct at_server` as far as the parser uses it, its local `last_ch`, and what the device has
been sent. -/
structure AtServer where
  echoMode : Bool
  recvBuffer : List Byte
  curRecvLen : Nat
  lastCh : Byte
  sent : List Byte
  sized : recvBuffer.length = atServerRecvBuffLen

namespace AtServer

/-- In echo mode the two keys edit the line. -/
def edits (s : AtServer) (ch : Byte) : Bool := s.echoMode && (ch == backspaceKey || ch == delectKey)

def erase (s : AtServer) : AtServer :=
  if s.curRecvLen = 0 then s
  else
    { s with
      recvBuffer := s.recvBuffer.set (s.curRecvLen - 1) 0
      curRecvLen := s.curRecvLen - 1
      sent := s.sent ++ ascii "\x08 \x08"
      sized := List.length_set.trans s.sized }

def echo (s : AtServer) (ch : Byte) : List Byte :=
  if !s.echoMode then []
  else if ch = atCmdCr ∨ ch = atCmdLf ∧ s.lastCh ≠ atCmdCr then [atCmdCr, atCmdLf]
  else [ch]

def store (s : AtServer) (ch : Byte) : AtServer :=
  { s with
    recvBuffer := s.recvBuffer.set s.curRecvLen ch
    curRecvLen := s.curRecvLen + 1
    lastCh := ch
    sent := s.sent ++ s.echo ch
    sized := List.length_set.trans s.sized }

/-- From the end of the line to `__retry`. -/
def finish (cmdTable : List AtCmd) (s : AtServer) : AtServer :=
  let (printed, echo) := execute cmdTable s.recvBuffer s.echoMode
  { s with
    echoMode := echo
    recvBuffer := List.replicate atServerRecvBuffLen 0
    curRecvLen := 0
    sent := s.sent ++ printed
    sized := List.length_replicate }

def complete (m : EndMark) (s : AtServer) : Bool := strstr (CString.text 0 s.recvBuffer) m.bytes

/-- A round of `server_parser`; `ESC` ends it. -/
def round (cmdTable : List AtCmd) (m : EndMark) (s : AtServer) (ch : Byte) : Option AtServer :=
  if ch = escKey then none
  else if s.edits ch then some s.erase
  else if (s.store ch).complete m then some ((s.store ch).finish cmdTable)
  else some (s.store ch)

/-- What a round stores, searches and copies is inside: `recv_buffer` has a terminator when it is
searched, and the name fits `cur_cmd_name` with its own. -/
def InBounds (m : EndMark) (s : AtServer) (ch : Byte) : Prop :=
  s.curRecvLen ≤ atServerRecvBuffLen ∧
    (¬s.edits ch → s.curRecvLen < atServerRecvBuffLen ∧ 0 ∈ (s.store ch).recvBuffer ∧
      ((s.store ch).complete m → ∀ name ∈ atCmdGetName (s.store ch).recvBuffer,
        name.length < atCmdNameLen))

instance (m : EndMark) (s : AtServer) : DecidablePred (s.InBounds m) := fun _ =>
  inferInstanceAs (Decidable (_ ∧ _))

def start (echo : Bool) (lastCh : Byte) : AtServer where
  echoMode := echo
  recvBuffer := List.replicate atServerRecvBuffLen 0
  curRecvLen := 0
  lastCh := lastCh
  sent := []
  sized := List.length_replicate

end AtServer

/-! ## The line being typed -/

structure Typing where
  line : List Byte
  echoMode : Bool

namespace Typing

def edits (t : Typing) (ch : Byte) : Bool := t.echoMode && (ch == backspaceKey || ch == delectKey)

/-- What the line reads as with one more character: a NUL ends it. -/
def text (t : Typing) (ch : Byte) : List Byte := CString.text 0 (t.line ++ [ch])

def round (cmdTable : List AtCmd) (m : EndMark) (t : Typing) (ch : Byte) : Option Typing :=
  if ch = escKey then none
  else if t.edits ch then some { t with line := t.line.dropLast }
  else if strstr (t.text ch) m.bytes then
    some ⟨[], (execute cmdTable (t.text ch) t.echoMode).2⟩
  else some { t with line := t.line ++ [ch] }

/-- The character leaves room for a terminator, or takes the last place in a line that has a NUL;
and where it ends a line with a name, the name ends among the first characters. -/
def Fits (m : EndMark) (t : Typing) (ch : Byte) : Prop :=
  ¬t.edits ch →
    (t.line.length + 1 < atServerRecvBuffLen ∨
      t.line.length + 1 = atServerRecvBuffLen ∧ 0 ∈ t.line ++ [ch]) ∧
    (strstr (t.text ch) m.bytes → (∃ b ∈ t.text ch, endsName b) →
      ∃ b ∈ (t.text ch).take atCmdNameLen, endsName b)

instance (m : EndMark) (t : Typing) : DecidablePred (t.Fits m) := fun _ =>
  inferInstanceAs (Decidable (_ → _))

end Typing

/-! ## The client's command line -/

/-- `FINSH_CMD_SIZE`, the size of `cur_line`. -/
def finshCmdSize : Nat := 80

/-- The locals of `client_cli_parser`, the lines it has handed to `at_obj_exec_cmd`, and what the
console has been sent. -/
structure ClientCli where
  curLine : List Byte
  curLineLen : Nat
  executed : List (List Byte)
  printed : List Byte
  sized : curLine.length = finshCmdSize

namespace ClientCli

/-- A round of `client_cli_parser`; `ESC` ends it. -/
def round (s : ClientCli) (ch : Byte) : Option ClientCli :=
  if ch = escKey then none
  else if ch = backspaceKey ∨ ch = delectKey then
    if s.curLineLen = 0 then some s
    else
      some { s with
        curLine := s.curLine.set (s.curLineLen - 1) 0
        curLineLen := s.curLineLen - 1
        printed := s.printed ++ ascii "\x08 \x08"
        sized := List.length_set.trans s.sized }
  else if ch = atCmdCr ∨ ch = atCmdLf then
    if s.curLineLen = 0 then some s
    else
      some { s with
        curLineLen := 0
        executed := s.executed ++ [s.curLine.take s.curLineLen]
        printed := s.printed ++ [atCmdLf] }
  else
    some { s with
      curLine := s.curLine.set s.curLineLen ch
      curLineLen := s.curLineLen + 1
      printed := s.printed ++ [ch]
      sized := List.length_set.trans s.sized }

/-- The key is none that edits or ends the line. -/
def Types (ch : Byte) : Prop :=
  ¬(ch = backspaceKey ∨ ch = delectKey) ∧ ¬(ch = atCmdCr ∨ ch = atCmdLf)

instance : DecidablePred Types := fun _ => inferInstanceAs (Decidable (_ ∧ _))

/-- The line stays in `cur_line`, and a character is stored in it. -/
def InBounds (s : ClientCli) (ch : Byte) : Prop :=
  s.curLineLen ≤ finshCmdSize ∧ (Types ch → s.curLineLen < finshCmdSize)

instance (s : ClientCli) : DecidablePred s.InBounds := fun _ =>
  inferInstanceAs (Decidable (_ ∧ _))

def start : ClientCli where
  curLine := List.replicate finshCmdSize 0
  curLineLen := 0
  executed := []
  printed := []
  sized := List.length_replicate

end ClientCli

/-- The line that a user of the console has typed. -/
def typed (line : List Byte) (ch : Byte) : Option (List Byte) :=
  if ch = escKey then none
  else if ch = backspaceKey ∨ ch = delectKey then some line.dropLast
  else if ch = atCmdCr ∨ ch = atCmdLf then some []
  else some (line ++ [ch])

/-- A line has at most so many characters as `cur_line` has places. -/
def LineFits (line : List Byte) (ch : Byte) : Prop :=
  ClientCli.Types ch → (line ++ [ch]).length ≤ finshCmdSize

instance (line : List Byte) : DecidablePred (LineFits line) := fun _ =>
  inferInstanceAs (Decidable (_ → _))

/-! ## The server's line is the one typed -/

/-- The first place of a kind is among the first `n` exactly if one of them is of that kind. -/
theorem findIdx?_lt_iff {α : Type} {p : α → Bool} {l : List α} {n : Nat} :
    (∀ i ∈ l.findIdx? p, i < n) ↔ ((∃ a ∈ l, p a) → ∃ a ∈ l.take n, p a) := by
  constructor
  · rintro h ⟨a, ha, hp⟩
    obtain ⟨i, hi⟩ : ∃ i, l.findIdx? p = some i := by
      rw [← Option.isSome_iff_exists, List.findIdx?_isSome, List.any_eq_true]
      exact ⟨a, ha, hp⟩
    obtain ⟨hlt, hpi, -⟩ := List.findIdx?_eq_some_iff_getElem.mp hi
    exact ⟨l[i], List.mem_take_iff_getElem.mpr ⟨i, by have := h i hi; omega, rfl⟩, hpi⟩
  · intro h i hi
    obtain ⟨hlt, hpi, hfirst⟩ := List.findIdx?_eq_some_iff_getElem.mp hi
    obtain ⟨a, ha, hpa⟩ := h ⟨l[i], List.getElem_mem hlt, hpi⟩
    obtain ⟨j, hj, rfl⟩ := List.mem_take_iff_getElem.mp ha
    by_contra hle
    exact hfirst j (by omega) hpa

theorem name_length_lt_iff (cmdBuffer : List Byte) (n : Nat) :
    (∀ name ∈ atCmdGetName cmdBuffer, name.length < n) ↔
      ((∃ b ∈ CString.text 0 cmdBuffer, endsName b) →
        ∃ b ∈ (CString.text 0 cmdBuffer).take n, endsName b) := by
  rw [← findIdx?_lt_iff]
  unfold atCmdGetName
  constructor
  · intro h i hi
    have hlt := (List.findIdx?_eq_some_iff_getElem.mp hi).1
    have hname := h _ (Option.map_eq_some_iff.mpr ⟨i, hi, rfl⟩)
    rwa [List.length_take_of_le hlt.le] at hname
  · intro h name hname
    obtain ⟨i, hi, rfl⟩ := Option.map_eq_some_iff.mp hname
    exact (List.length_take_le i _).trans_lt (h i hi)

/-- The buffer has what has been typed, and is empty behind it. -/
structure Holds (s : AtServer) (t : Typing) : Prop where
  echo : s.echoMode = t.echoMode
  len : s.curRecvLen = t.line.length
  buffer : s.recvBuffer = t.line ++ List.replicate (atServerRecvBuffLen - t.line.length) 0

section
variable {m : EndMark} {s : AtServer} {t : Typing} {ch : Byte} {cmdTable : List AtCmd}

theorem Holds.le (h : Holds s t) : t.line.length ≤ atServerRecvBuffLen := by
  have hsized := s.sized
  rw [h.buffer, List.length_append, List.length_replicate] at hsized
  omega

theorem Holds.edits (h : Holds s t) : s.edits ch = t.edits ch := by
  unfold AtServer.edits Typing.edits
  rw [h.echo]

theorem Holds.store (h : Holds s t) (hlt : t.line.length < atServerRecvBuffLen) :
    Holds (s.store ch) { t with line := t.line ++ [ch] } := by
  refine ⟨h.echo, ?_, ?_⟩
  · change s.curRecvLen + 1 = (t.line ++ [ch]).length
    rw [h.len, List.length_append, List.length_singleton]
  · change s.recvBuffer.set s.curRecvLen ch = (t.line ++ [ch]) ++ List.replicate _ 0
    obtain ⟨k, hk⟩ := Nat.exists_eq_add_of_lt hlt
    have hzeros : atServerRecvBuffLen - t.line.length = k + 1 := by omega
    have hfewer : atServerRecvBuffLen - (t.line ++ [ch]).length = k := by
      rw [List.length_append, List.length_singleton]
      omega
    rw [h.buffer, h.len, hzeros, hfewer, List.set_append_right _ _ le_rfl, Nat.sub_self,
      List.replicate_succ, List.set_cons_zero, List.append_assoc, List.singleton_append]

theorem Holds.erase (h : Holds s t) : Holds s.erase { t with line := t.line.dropLast } := by
  obtain ⟨line, echoMode⟩ := t
  have hlen : s.curRecvLen = line.length := h.len
  unfold AtServer.erase
  obtain rfl | ⟨l, b, rfl⟩ := List.eq_nil_or_concat line
  · rw [if_pos (show s.curRecvLen = 0 from hlen)]
    exact h
  · rw [List.concat_eq_append] at h hlen ⊢
    rw [List.length_append, List.length_singleton] at hlen
    rw [if_neg (by omega)]
    refine ⟨h.echo, ?_, ?_⟩
    · change s.curRecvLen - 1 = (l ++ [b]).dropLast.length
      rw [List.dropLast_concat, hlen, Nat.add_sub_cancel]
    · change s.recvBuffer.set (s.curRecvLen - 1) 0 = (l ++ [b]).dropLast ++ List.replicate _ 0
      have hle := h.le
      have hbuffer := h.buffer
      rw [List.length_append, List.length_singleton] at hle hbuffer
      have hzeros : atServerRecvBuffLen - l.length =
          (atServerRecvBuffLen - (l.length + 1)) + 1 := by omega
      rw [List.dropLast_concat, hbuffer, hlen, Nat.add_sub_cancel, List.append_assoc,
        List.set_append_right _ _ le_rfl, Nat.sub_self, hzeros, List.replicate_succ]
      rfl

theorem Holds.text (h : Holds s t) : CString.text 0 s.recvBuffer = CString.text 0 t.line := by
  rw [h.buffer]
  exact CString.text_append_of_forall_eq fun b hb => List.eq_of_mem_replicate hb

theorem execute_text (cmdTable : List AtCmd) (cmdBuffer : List Byte) (echo : Bool) :
    execute cmdTable (CString.text 0 cmdBuffer) echo = execute cmdTable cmdBuffer echo := by
  unfold execute atCmdGetName
  rw [CString.text_text]

theorem Holds.finish (h : Holds s t) : Holds (s.finish cmdTable)
    ⟨[], (execute cmdTable (CString.text 0 t.line) t.echoMode).2⟩ := by
  refine ⟨?_, rfl, rfl⟩
  change (execute cmdTable s.recvBuffer s.echoMode).2 = _
  rw [← execute_text, h.text, h.echo]

/-- The buffer has a terminator as long as its last place is free, or the line has one. -/
theorem Holds.terminated_iff (h : Holds s t) :
    0 ∈ s.recvBuffer ↔ t.line.length < atServerRecvBuffLen ∨ 0 ∈ t.line := by
  rw [h.buffer, List.mem_append, List.mem_replicate, or_comm]
  refine or_congr_left ⟨fun hzero => ?_, fun hlt => ⟨?_, rfl⟩⟩
  · exact Nat.lt_of_sub_ne_zero hzero.1
  · exact Nat.sub_ne_zero_of_lt hlt

theorem Holds.inBounds_iff_fits (h : Holds s t) : s.InBounds m ch ↔ t.Fits m ch := by
  have hle : s.curRecvLen ≤ atServerRecvBuffLen := h.len ▸ h.le
  unfold AtServer.InBounds Typing.Fits
  rw [and_iff_right hle, h.edits]
  refine imp_congr_right fun _ => ?_
  by_cases hlt : t.line.length < atServerRecvBuffLen
  · have hstore : Holds (s.store ch) _ := h.store hlt
    have htext : CString.text 0 (s.store ch).recvBuffer = t.text ch := hstore.text
    unfold AtServer.complete
    rw [h.len, and_iff_right hlt, hstore.terminated_iff, name_length_lt_iff, htext,
      List.length_append, List.length_singleton]
    refine and_congr_left fun _ => or_congr_right' fun hroom => ?_
    exact (and_iff_right (by omega)).symm
  · constructor
    · rintro ⟨hroom, -⟩
      exact absurd (h.len ▸ hroom) hlt
    · rintro ⟨hroom, -⟩
      omega

theorem Holds.round (h : Holds s t) :
    (s.round cmdTable m ch = none ∧ t.round cmdTable m ch = none) ∨
      ∃ s' t', s.round cmdTable m ch = some s' ∧ t.round cmdTable m ch = some t' ∧
        (s.InBounds m ch ↔ t.Fits m ch) ∧ (t.Fits m ch → Holds s' t') := by
  unfold AtServer.round Typing.round
  rw [h.edits]
  by_cases hesc : ch = escKey
  · exact .inl ⟨if_pos hesc, if_pos hesc⟩
  rw [if_neg hesc, if_neg hesc]
  by_cases hedits : t.edits ch
  · rw [if_pos hedits, if_pos hedits]
    exact .inr ⟨_, _, rfl, rfl, h.inBounds_iff_fits, fun _ => h.erase⟩
  rw [if_neg hedits, if_neg hedits]
  by_cases hlt : t.line.length < atServerRecvBuffLen
  · have hstore : Holds (s.store ch) _ := h.store hlt
    have htext : CString.text 0 (s.store ch).recvBuffer = t.text ch := hstore.text
    unfold AtServer.complete
    rw [htext]
    split
    · refine .inr ⟨_, _, rfl, rfl, h.inBounds_iff_fits, fun _ => ?_⟩
      exact hstore.finish
    · exact .inr ⟨_, _, rfl, rfl, h.inBounds_iff_fits, fun _ => hstore⟩
  · have hbad : ¬t.Fits m ch := fun hfits => by
      obtain ⟨hroom, -⟩ := hfits hedits
      omega
    split <;> split <;>
      exact .inr ⟨_, _, rfl, rfl, h.inBounds_iff_fits, fun hfits => absurd hfits hbad⟩

theorem holds_start (echo : Bool) (lastCh : Byte) :
    Holds (AtServer.start echo lastCh) ⟨[], echo⟩ := ⟨rfl, rfl, rfl⟩

/-- The console's line has as many characters as have been typed. -/
theorem ClientCli.round_typed {s : ClientCli} {line : List Byte} (h : s.curLineLen = line.length)
    (hle : line.length ≤ finshCmdSize) (ch : Byte) : (s.round ch = none ∧ typed line ch = none) ∨
      ∃ s' line', s.round ch = some s' ∧ typed line ch = some line' ∧
        (s.InBounds ch ↔ LineFits line ch) ∧
        (LineFits line ch → s'.curLineLen = line'.length ∧ line'.length ≤ finshCmdSize) := by
  have hiff : s.InBounds ch ↔ LineFits line ch := by
    unfold ClientCli.InBounds LineFits
    rw [h, and_iff_right hle, List.length_append, List.length_singleton]
    exact Iff.rfl
  unfold ClientCli.round typed
  by_cases hesc : ch = escKey
  · exact .inl ⟨if_pos hesc, if_pos hesc⟩
  rw [if_neg hesc, if_neg hesc]
  by_cases hedits : ch = backspaceKey ∨ ch = delectKey
  · rw [if_pos hedits, if_pos hedits]
    split
    · refine .inr ⟨_, _, rfl, rfl, hiff, fun _ => ?_⟩
      rw [List.length_dropLast]
      omega
    · refine .inr ⟨_, _, rfl, rfl, hiff, fun _ => ?_⟩
      rw [List.length_dropLast]
      exact ⟨congrArg (· - 1) h, by omega⟩
  rw [if_neg hedits, if_neg hedits]
  by_cases hends : ch = atCmdCr ∨ ch = atCmdLf
  · rw [if_pos hends, if_pos hends]
    split
    · rename_i hzero
      exact .inr ⟨_, _, rfl, rfl, hiff, fun _ => ⟨hzero, Nat.zero_le _⟩⟩
    · exact .inr ⟨_, _, rfl, rfl, hiff, fun _ => ⟨rfl, Nat.zero_le _⟩⟩
  · rw [if_neg hends, if_neg hends]
    refine .inr ⟨_, _, rfl, rfl, hiff, fun hfits => ⟨?_, hfits ⟨hedits, hends⟩⟩⟩
    change s.curLineLen + 1 = (line ++ [ch]).length
    rw [h, List.length_append, List.length_singleton]

end

theorem server_along_iff (cmdTable : List AtCmd) (m : EndMark) (echo : Bool) (lastCh : Byte)
    (stream : List Byte) :
    Along (AtServer.round cmdTable m) (AtServer.InBounds m) (AtServer.start echo lastCh) stream ↔
      Along (Typing.round cmdTable m) (Typing.Fits m) ⟨[], echo⟩ stream :=
  along_iff_of_simulation (fun _ _ _ h => h.round) (holds_start echo lastCh) stream

theorem client_along_iff (stream : List Byte) :
    Along ClientCli.round ClientCli.InBounds ClientCli.start stream ↔
      Along typed LineFits [] stream :=
  along_iff_of_simulation
    (R := fun s line => s.curLineLen = line.length ∧ line.length ≤ finshCmdSize)
    (fun _ _ ch h => ClientCli.round_typed h.1 h.2 ch) ⟨rfl, Nat.zero_le _⟩ stream

/-- The parsers stay inside their arrays exactly on the streams whose lines are short enough. -/
theorem inBounds_along_iff (cmdTable : List AtCmd) (m : EndMark) (echo : Bool) (lastCh : Byte)
    (stream : List Byte) :
    (Along (AtServer.round cmdTable m) (AtServer.InBounds m) (AtServer.start echo lastCh) stream ↔
      Along (Typing.round cmdTable m) (Typing.Fits m) ⟨[], echo⟩ stream) ∧
    (Along ClientCli.round ClientCli.InBounds ClientCli.start stream ↔
      Along typed LineFits [] stream) :=
  ⟨server_along_iff cmdTable m echo lastCh stream, client_along_iff stream⟩

/-- A name of sixteen letters, 256 characters without an end, and a line of 81 characters. -/
theorem long_lines :
    ¬Along (AtServer.round [] .crlf) (AtServer.InBounds .crlf) (AtServer.start true 0)
      (ascii "ABCDEFGHIJKLMNOP\r\n") ∧
    ¬Along (AtServer.round [] .crlf) (AtServer.InBounds .crlf) (AtServer.start true 0)
      (List.replicate 256 0x41) ∧
    ¬Along ClientCli.round ClientCli.InBounds ClientCli.start (List.replicate 81 0x41) := by
  rw [server_along_iff, server_along_iff, client_along_iff]
  decide +kernel

end ControlRTT.Net.LineEditors

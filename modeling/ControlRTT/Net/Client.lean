import ControlRTT.Lib.CInt
import ControlRTT.Lib.CString
import ControlRTT.Kernel.Thread

/-! # The AT client (at_client.c)

A thread gives the client a response object, sends a command and waits for the notice of the
parser, which puts the lines it receives in the object. The object is handed over without a lock:
the parser looks for `client->resp` anew at each use, and the waiting thread may have timed out.
One event here is one access to what the threads share. -/
namespace ControlRTT.Net.Client
open ControlRTT.Lib ControlRTT.Lib.CInt ControlRTT.Kernel.Thread

/-- `"OK"` -/
def atRespEndOk : List Byte := [0x4F, 0x4B]

/-- `"ERROR"` -/
def atRespEndError : List Byte := [0x45, 0x52, 0x52, 0x4F, 0x52]

/-- `"FAIL"` -/
def atRespEndFail : List Byte := [0x46, 0x41, 0x49, 0x4C]

/-- `strstr` finds the word in the text. -/
def strstr (text word : List Byte) : Bool := text.tails.any fun rest => word.isPrefixOf rest

inductive AtRespStatus where
  | ok
  | error
  | timeout
  | buffFull
  deriving DecidableEq, Repr

/-- `struct at_response`; how long its timeout is does not matter here. -/
structure AtResponse where
  buf : List Byte
  bufSize : BitVec 32
  lineNum : Nat
  lineCounts : Nat
  sized : buf.length = bufSize.toNat

def atCreateResp (bufSize : BitVec 32) (lineNum : Nat) : AtResponse where
  buf := List.replicate bufSize.toNat 0
  bufSize := bufSize
  lineNum := lineNum
  lineCounts := 0
  sized := List.length_replicate

namespace AtResponse

def setLineCounts (r : AtResponse) (n : Nat) : AtResponse := { r with lineCounts := n }

/-- A byte that `memcpy` writes. -/
def put (r : AtResponse) (i : Nat) (b : Byte) : AtResponse :=
  { r with buf := r.buf.set i b, sized := List.length_set.trans r.sized }

end AtResponse

/-- The loop of `at_resp_get_line` with `n` rounds to go, `buf` being the rest of the buffer. -/
def getLineLoop (respLine : Nat) : Nat → Nat → List Byte → Option (List Byte)
  | 0, _, _ => none
  | n + 1, lineNum, buf =>
    if respLine = lineNum then some (CString.text 0 buf)
    else getLineLoop respLine n (lineNum + 1) (buf.drop ((CString.text 0 buf).length + 1))

def atRespGetLine (resp : AtResponse) (respLine : Nat) : Option (List Byte) :=
  if respLine > resp.lineCounts ∨ respLine = 0 then none
  else getLineLoop respLine resp.lineCounts 1 resp.buf

/-- `struct at_urc`; what its function does with a request is left out. -/
structure AtUrc where
  cmdPrefix : List Byte
  cmdSuffix : List Byte
  deriving DecidableEq, Repr

/-- What is set up before the client is used. -/
structure AtConfig where
  recvBufsz : Nat
  endSign : Byte := 0
  urcTable : List AtUrc := []
  deriving DecidableEq, Repr

/-- `get_urc_obj` on what has been received of a line. -/
def AtConfig.getUrcObj (cfg : AtConfig) (buffer : List Byte) : Option AtUrc :=
  cfg.urcTable.find? fun urc => urc.cmdPrefix.length + urc.cmdSuffix.length ≤ buffer.length &&
    urc.cmdPrefix.isPrefixOf buffer && urc.cmdSuffix.isSuffixOf buffer

/-- For what `client_parser` looks into the response object. -/
inductive Use where
  | bufSize
  | buf
  | logSize
  | okLineNum
  | lineNum
  | lineNumAgain
  | lineCounts
  deriving DecidableEq, Repr

/-- Where `client_parser` is. A use reads `client->resp` first and then the object that was found
there. -/
inductive Phase (Obj : Type) where
  | reading
  | test
  | load (u : Use)
  | use (u : Use) (resp : Option Obj)
  | copy (o : Obj) (i : Nat)
  | full
  | check
  | ended (status : AtRespStatus)
  | clear
  | release
  | reset
  | fault
  deriving DecidableEq, Repr

/-- The variables of `client_parser` and `at_recv_readline`, the receive buffer up to
`cur_recv_len`, and every byte since the last line, also where the buffer was full. -/
structure AtParser (Obj : Type) where
  phase : Phase Obj := .reading
  raw : List Byte := []
  recvBuffer : List Byte := []
  lastCh : Byte := 0
  isFull : Bool := false
  respBufLen : Nat := 0
  lineCounts : Nat := 0

namespace AtParser
variable {Obj : Type}

def setPhase (p : AtParser Obj) (phase : Phase Obj) : AtParser Obj := { p with phase := phase }

/-- The next call of `at_recv_readline`. -/
def readline (p : AtParser Obj) : AtParser Obj :=
  { p with phase := .reading, raw := [], recvBuffer := [], lastCh := 0, isFull := false }

/-- The byte goes to the receive buffer, if it has room. -/
def store (cfg : AtConfig) (p : AtParser Obj) (ch : Byte) : AtParser Obj :=
  let p := { p with raw := p.raw ++ [ch] }
  if p.recvBuffer.length < cfg.recvBufsz then { p with recvBuffer := p.recvBuffer ++ [ch] }
  else { p with isFull := true }

/-- The line ends with the byte `ch`, which has been stored. -/
def ends (cfg : AtConfig) (p : AtParser Obj) (ch : Byte) : Bool :=
  ch = 0x0A && p.lastCh = 0x0D || cfg.endSign ≠ 0 && ch = cfg.endSign ||
    (cfg.getUrcObj p.recvBuffer).isSome

/-- `client->recv_buffer[client->cur_recv_len - 1] = '\0'` -/
def terminate (p : AtParser Obj) : AtParser Obj :=
  { p with recvBuffer := p.recvBuffer.dropLast ++ [0] }

/-- A line has been copied. -/
def counted (p : AtParser Obj) : AtParser Obj :=
  { p with
    respBufLen := u32 (p.respBufLen + p.recvBuffer.length)
    lineCounts := u32 (p.lineCounts + 1) }

def isOk (p : AtParser Obj) : Bool := atRespEndOk.isPrefixOf p.recvBuffer

def isError (p : AtParser Obj) : Bool :=
  strstr (CString.text 0 p.recvBuffer) atRespEndError || atRespEndFail.isPrefixOf p.recvBuffer

/-- The tests after the one for `"OK"`. -/
def checkRest (p : AtParser Obj) : AtParser Obj :=
  p.setPhase (if p.isError then .ended .error else .load .lineNum)

end AtParser

inductive Api where
  | execCmd
  | waitConnect
  deriving DecidableEq, Repr

/-- Where a call is that holds `client->lock`. -/
inductive CallPhase where
  | start
  | supply
  | loop
  | zero
  | write
  | take
  | check
  | timedOut
  | delete (result : Err)
  | clear (result : Err)
  | unlock (result : Err)
  deriving DecidableEq, Repr

/-- A call, whether the parser has completed its response, and the lines that have come for it. -/
structure Call (Obj : Type) where
  api : Api
  resp : Option Obj
  phase : CallPhase
  completed : Bool := false
  received : List (List Byte) := []
  deriving DecidableEq, Repr

/-- What the threads share of `struct at_client`, the response objects, the parser, and the call
that holds the lock. -/
structure AtClient (Obj : Type) where
  resp : Option Obj := none
  respNotice : Nat := 0
  respStatus : AtRespStatus := .ok
  objs : Obj → AtResponse
  parser : AtParser Obj := {}
  call : Option (Call Obj) := none

variable {Obj : Type} [DecidableEq Obj]

namespace AtClient

def setParser (s : AtClient Obj) (p : AtParser Obj) : AtClient Obj := { s with parser := p }

def goto (s : AtClient Obj) (phase : Phase Obj) : AtClient Obj :=
  s.setParser (s.parser.setPhase phase)

def setObj (s : AtClient Obj) (o : Obj) (r : AtResponse) : AtClient Obj :=
  { s with objs := Function.update s.objs o r }

/-- A line that is no request has come. -/
def noteLine (s : AtClient Obj) (line : List Byte) : AtClient Obj :=
  if s.resp = none then s
  else { s with call := s.call.map fun c => { c with received := c.received ++ [line] } }

/-- The response object `o` gets its number of lines. -/
def noteCompleted (s : AtClient Obj) (o : Obj) : AtClient Obj :=
  { s with call := s.call.map fun c => if c.resp = some o then { c with completed := true } else c }

end AtClient

/-! ## The parser -/

/-- `at_recv_readline` gets a byte. -/
def atRecvReadline (cfg : AtConfig) (s : AtClient Obj) (ch : Byte) : AtClient Obj :=
  let p := s.parser.store cfg ch
  if p.ends cfg ch then
    -- a line that the buffer does not hold is dropped whole
    if p.isFull then (s.noteLine p.raw).setParser p.readline
    else if (cfg.getUrcObj p.recvBuffer).isSome then s.setParser (p.setPhase .test)
    else (s.noteLine p.raw).setParser (p.setPhase .test)
  else s.setParser { p with lastCh := ch }

/-- What `client_parser` does with the object it has found for `u`. -/
def useResp (s : AtClient Obj) (o : Obj) : Use → AtClient Obj
  | .bufSize =>
    if u32 (s.parser.respBufLen + s.parser.recvBuffer.length) < (s.objs o).bufSize.toNat then
      s.goto (.load .buf)
    else s.goto .full
  | .buf => s.goto (.copy o 0)
  | .logSize => s.goto .check
  | .okLineNum =>
    if (s.objs o).lineNum = 0 then s.goto (.ended .ok) else s.setParser s.parser.checkRest
  | .lineNum =>
    if s.parser.lineCounts = (s.objs o).lineNum then s.goto (.load .lineNumAgain)
    else s.setParser s.parser.readline
  | .lineNumAgain =>
    if (s.objs o).lineNum ≠ 0 then s.goto (.ended .ok) else s.setParser s.parser.readline
  | .lineCounts =>
    ((s.setObj o ((s.objs o).setLineCounts s.parser.lineCounts)).noteCompleted o).goto .clear

/-- The next step of `client_parser`, when it is not waiting for a byte. -/
def clientParser (cfg : AtConfig) (s : AtClient Obj) : Option (AtClient Obj) :=
  match s.parser.phase with
  | .reading => none
  | .test =>
    if (cfg.getUrcObj s.parser.recvBuffer).isSome ∨ s.resp = none then
      some (s.setParser s.parser.readline)
    else some (s.setParser (s.parser.terminate.setPhase (.load .bufSize)))
  | .load u => some (s.goto (.use u s.resp))
  | .use _ none => some (s.goto .fault)
  | .use u (some o) => some (useResp s o u)
  | .copy o i =>
    match s.parser.recvBuffer[i]? with
    | some b =>
      some ((s.setObj o ((s.objs o).put (s.parser.respBufLen + i) b)).goto (.copy o (i + 1)))
    | none => some (s.setParser (s.parser.counted.setPhase .check))
  | .full => some ({ s with respStatus := .buffFull }.goto (.load .logSize))
  | .check =>
    if s.parser.isOk then some (s.goto (.load .okLineNum))
    else some (s.setParser s.parser.checkRest)
  | .ended status => some ({ s with respStatus := status }.goto (.load .lineCounts))
  | .clear => some ({ s with resp := none }.goto .release)
  | .release => some ({ s with respNotice := s.respNotice + 1 }.goto .reset)
  | .reset => some (s.setParser { s.parser with respBufLen := 0, lineCounts := 0 }.readline)
  | .fault => none

/-! ## The calls -/

def AtClient.callTo (s : AtClient Obj) (c : Call Obj) (phase : CallPhase) : AtClient Obj :=
  { s with call := some { c with phase := phase } }

/-- From `__exit` on, and the end of `at_client_obj_wait_connect`. -/
def exit (s : AtClient Obj) (c : Call Obj) : Option (AtClient Obj) :=
  match c.phase with
  | .clear result => some ({ s with resp := none }.callTo c (.unlock result))
  | .unlock _ => some { s with call := none }
  | _ => none

/-- The next step of `at_obj_exec_cmd`, when it does not wait in vain. -/
def atObjExecCmd (s : AtClient Obj) (c : Call Obj) : Option (AtClient Obj) :=
  match c.phase, c.resp with
  | .start, _ => some ({ s with respStatus := .ok }.callTo c .supply)
  | .supply, _ => some ({ s with resp := c.resp }.callTo c .write)
  | .write, none => some (s.callTo c (.clear .eok))
  | .write, some _ => some (s.callTo c .zero)
  | .zero, some o => some ((s.setObj o ((s.objs o).setLineCounts 0)).callTo c .take)
  | .take, some _ =>
    if s.respNotice = 0 then none
    else some ({ s with respNotice := s.respNotice - 1 }.callTo c .check)
  | .check, some _ => some (s.callTo c (.clear (if s.respStatus = .ok then .eok else .error)))
  | .timedOut, some _ => some ({ s with respStatus := .timeout }.callTo c (.clear .etimeout))
  | _, _ => exit s c

/-- The next step of `at_client_obj_wait_connect`, likewise. -/
def atClientObjWaitConnect (s : AtClient Obj) (c : Call Obj) : Option (AtClient Obj) :=
  match c.phase, c.resp with
  | .supply, _ => some ({ s with resp := c.resp }.callTo c .loop)
  | .loop, some _ => some (s.callTo c .zero)
  | .zero, some o => some ((s.setObj o ((s.objs o).setLineCounts 0)).callTo c .write)
  | .write, some _ => some (s.callTo c .take)
  | .take, some _ =>
    if s.respNotice = 0 then none
    else some ({ s with respNotice := s.respNotice - 1 }.callTo c (.delete .eok))
  | .delete result, some _ => some (s.callTo c (.clear result))
  | _, _ => exit s c

def proceed (s : AtClient Obj) (c : Call Obj) : Option (AtClient Obj) :=
  match c.api with
  | .execCmd => atObjExecCmd s c
  | .waitConnect => atClientObjWaitConnect s c

/-- The wait for the notice is over without one, or all the time of `at_client_obj_wait_connect`
is. -/
def timeOut (s : AtClient Obj) (c : Call Obj) : Option (AtClient Obj) :=
  match c.api, c.phase with
  | .execCmd, .take => if s.respNotice = 0 then some (s.callTo c .timedOut) else none
  | .waitConnect, .take => if s.respNotice = 0 then some (s.callTo c .loop) else none
  | .waitConnect, .loop => some (s.callTo c (.delete .etimeout))
  | _, _ => none

/-- `setResp` is `at_create_resp` or `at_resp_set_info` of an object that no call is using. -/
inductive Event (Obj : Type) where
  | byte (ch : Byte)
  | parse
  | execCmd (resp : Option Obj)
  | waitConnect (resp : Obj)
  | proceed
  | timeout
  | setResp (o : Obj) (r : AtResponse)

def step (cfg : AtConfig) (s : AtClient Obj) : Event Obj → Option (AtClient Obj)
  | .byte ch => if s.parser.phase = .reading then some (atRecvReadline cfg s ch) else none
  | .parse => clientParser cfg s
  | .execCmd resp =>
    if s.call = none then some { s with call := some ⟨.execCmd, resp, .start, false, []⟩ } else none
  | .waitConnect resp =>
    if s.call = none then
      some { s.setObj resp (atCreateResp 16 0) with
        call := some ⟨.waitConnect, some resp, .supply, false, []⟩ }
    else none
  | .proceed => s.call.bind (Client.proceed s)
  | .timeout => s.call.bind (timeOut s)
  | .setResp o r => if ∀ c ∈ s.call, c.resp ≠ some o then some (s.setObj o r) else none

/-- `at_client_init`: nobody has called, and the parser waits for its first byte. -/
def start (objs : Obj → AtResponse) : AtClient Obj where
  objs := objs

end ControlRTT.Net.Client

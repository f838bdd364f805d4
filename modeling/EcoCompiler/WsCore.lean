import EcoCompiler.WsFrame

/-! # The WebSocket state machine

    `WsCore` (`WsProtocol.cpp`) as a machine that executes statements.  A port call may
    call back into the core before it returns, so a function is cut where it calls another
    one: `State.exec` runs one such piece and gives the pieces that follow, and the pieces
    still to run stand on a stack.  After a port call the top of the stack is
    `Stmt.inPort`, where the port may enter the core again.

    * `WsCore.State` — the members of the class, in the groups its comments make;
    * `WsCore.Stmt`, `WsCore.Entry` — the pieces of the functions and the entry points;
    * `WsCore.Choice` — what comes from outside during a step: time, room, zlib.

    `portOutbound` is const and reports a number, so it does not call back. -/

namespace WsCore

open WsFrame (WsDecoder Event Utf8Validator kOpContinuation kOpText kOpBinary kOpClose
  kOpPing kOpPong kMaxControlPayload kCloseProtocolError kCloseInvalidData
  kCloseMessageTooBig)

/-- Bytes. -/
abbrev Bytes := List UInt8

/-- The bytes of a text. -/
def utf8 (s : String) : Bytes := s.toUTF8.toList

/-! ## Constants -/

def kReadHighBytes : Nat := 1024 * 1024
def kReadHighCount : Nat := 1024
def kFragment : Nat := 256 * 1024
def kBodyChunk : Nat := 256 * 1024
def kInflateStep : Nat := 64 * 1024
def kDefaultPingTimeoutMs : Int := 30000

def kCloseNormal : Nat := 1000
def kCloseGoingAway : Nat := 1001
def kCloseNoStatus : Nat := 1005
def kCloseAbnormal : Nat := 1006
def kCloseInternalError : Nat := 1011

def EIO : Nat := 5
def EPROTO : Nat := 71
def EMSGSIZE : Nat := 90
def ECONNRESET : Nat := 104
def ETIMEDOUT : Nat := 110
def ECANCELED : Nat := 125

def kSocketClosed : String := "socket closed"

/-- `reasonFor`. -/
def reasonFor (code : Nat) (text : String) : String :=
  if code = kCloseInvalidData then "ERR_WS_INVALID_DATA: " ++ text
  else if code = kCloseMessageTooBig then "ERR_WS_MESSAGE_TOO_BIG"
  else if code = kCloseInternalError then "ERR_WS_INTERNAL_ERROR: " ++ text
  else "ERR_WS_PROTOCOL: " ++ text

/-- `errnoFor`. -/
def errnoFor (code : Nat) : Nat := if code = kCloseMessageTooBig then EMSGSIZE else EPROTO

/-- `pingPayload`. -/
def pingPayload (n : Nat) : Bytes :=
  [7, 6, 5, 4, 3, 2, 1, 0].map fun i => UInt8.ofNat ((n >>> (8 * i)) &&& 0xFF)

/-- The counter of an explicit ping, and that of the heartbeat with its top bit set. -/
def pingCount (n : Nat) : Nat := n % 2 ^ 63
/-- The numbers of heartbeats lie above those of pings. -/
def heartbeatCount (n : Nat) : Nat := pingCount n + 2 ^ 63

/-! ## Close frames and text -/

/-- The loop of `truncateUtf8`. -/
def cutBack (s : Bytes) : Nat → Nat
  | 0 => 0
  | cut + 1 => if (s.getD (cut + 1) 0) &&& 0xC0 = 0x80 then cutBack s cut else cut + 1

/-- `truncateUtf8`. -/
def truncateUtf8 (s : Bytes) (limit : Nat) : Bytes :=
  if s.length ≤ limit then s else s.take (cutBack s limit)

/-- `closePayload`. -/
def closePayload (code : Nat) (reason : Bytes) : Bytes :=
  if code = 0 then []
  else
    UInt8.ofNat ((code >>> 8) &&& 0xFF) :: UInt8.ofNat (code &&& 0xFF)
      :: truncateUtf8 reason (kMaxControlPayload - 2)

/-- `closeCodeValidOnReceipt`. -/
def closeCodeValidOnReceipt (code : Nat) : Bool :=
  (decide (1000 ≤ code) && decide (code ≤ 1003))
    || (decide (1007 ≤ code) && decide (code ≤ 1014))
    || (decide (3000 ≤ code) && decide (code ≤ 4999))

/-- `validUtf8`. -/
def validUtf8 (s : Bytes) : Bool :=
  let v := Utf8Validator.feed {} s
  !v.failed && v.complete

/-- `parseClose`: the code and reason, or the code and text of the failure. -/
def parseClose (payload : Bytes) : Except (Nat × String) (Nat × Bytes) :=
  match payload with
  | [] => .ok (kCloseNoStatus, [])
  | [_] => .error (kCloseProtocolError, "a Close frame with a 1-byte payload")
  | b0 :: b1 :: r =>
      let c := (b0.toNat <<< 8) ||| b1.toNat
      if !closeCodeValidOnReceipt c then
        .error (kCloseProtocolError, "invalid close code " ++ toString c)
      else if !validUtf8 r then
        .error (kCloseInvalidData, "the close reason is not valid UTF-8")
      else .ok (c, r)

/-- The turns of the loop of `utf8CompletePrefix` left, with `i` of its `n` bytes. -/
def completePrefixFrom (s : Bytes) (n : Nat) : Nat → Nat → Nat
  | 0, _ => n
  | _, 0 => n
  | turns + 1, i + 1 =>
      let c := s.getD i 0
      if c &&& 0xC0 = 0x80 then completePrefixFrom s n turns i
      else
        let len := if c < 0x80 then 1 else if 0xF0 ≤ c then 4 else if 0xE0 ≤ c then 3 else 2
        if len ≤ n - i then n else i

/-- `utf8CompletePrefix`. -/
def utf8CompletePrefix (s : Bytes) : Nat := completePrefixFrom s s.length 4 s.length

/-! ## Data -/

/-- The members of `WsConfig` that the core reads, and the errno names of the platform. -/
structure WsConfig where
  server : Bool := false
  maxMessage : Nat := 16 * 1024 * 1024
  heartbeatInterval : Int := 0
  heartbeatTimeout : Int := 0
  closeTimeout : Int := 30000
  streamed : Bool := false
  deflate : Bool := false
  threshold : Int := 0
  errnoName : Nat → String := fun _ => ""

/-- A frame as `buildFrame` encodes it, under some mask. -/
structure Frame where
  fin : Bool
  opcode : Nat
  payload : Bytes
  rsv1 : Bool := false
  deriving DecidableEq

/-- The bytes of a frame. -/
def Frame.encode (f : Frame) (mask : Option WsFrame.Mask) : Bytes :=
  WsFrame.encodeFrameRsv1 f.fin f.opcode f.rsv1 f.payload mask

/-- A Close frame. -/
def closeFrame (payload : Bytes) : Frame := { fin := true, opcode := kOpClose, payload := payload }

/-- `ReadEnd`. -/
inductive ReadEnd where
  | None
  | Eof
  | Error
  deriving DecidableEq

/-- `ReadReq`. -/
structure ReadReq where
  chan : Nat
  token : Nat
  deriving DecidableEq

/-- `Body`. -/
structure Body where
  seq : Nat
  text : Bool
  pairId : Int := 0
  q : List Bytes := []
  qBytes : Nat := 0
  partialText : Bytes := []
  reads : List ReadReq := []
  end_ : ReadEnd := .None
  err : Nat := 0
  reason : String := ""
  cancelled : Bool := false
  endDelivered : Bool := false
  messageDone : Bool := false

/-- `InMsg`; an announcement's `data` is its `pairId` in decimal. -/
structure InMsg where
  tag : Int
  data : Bytes := []
  ready : Bool := true
  bodySeq : Nat := 0
  pairId : Int := 0

/-- `Ping`. -/
structure Ping where
  payload : Bytes
  token : Nat
  sentMs : Int
  deadline : Int

/-- A data message or a piece of a stream in `OutItem`. -/
structure DataItem where
  frame : Bytes
  offset : Nat := 0
  opcode : Nat := 0
  chan : Nat
  token : Nat
  prepared : Bool := false
  compressed : Bool := false
  size : Nat

/-- `OutItem`: a message, a graceful Close with its payload, or the place of a stream.
    `place` numbers the data messages in the order they were queued. -/
inductive OutItem where
  | message (place : Nat) (item : DataItem)
  | close (payload : Bytes)
  | stream (place : Nat) (seq : Nat)

/-- `OutStream`. -/
structure OutStream where
  opcode : Nat
  started : Bool := false
  compress : Bool
  closing : Bool := false
  dead : Bool := false
  closeChan : Nat := 0
  closeToken : Nat := 0
  chunks : List DataItem := []

/-- `ChannelResult::Op`. -/
inductive Op where
  | Read
  | Write
  | Close
  deriving DecidableEq

/-- `ChannelResult`. -/
structure ChannelResult where
  channelId : Nat
  token : Nat
  op : Op
  err : Nat := 0
  eof : Bool := false
  bytes : Bytes := []
  written : Nat := 0
  reason : String := ""
  tag : Int := 0
  text : Bool := false

/-- `WsEvent`, without the ids of the core. -/
inductive WsEvent where
  | BodyNeeded (bodySeq : Nat) (bodyText : Bool)
  | BodyDispose (pairId : Int)
  | OpDone (token : Nat)
  | PingDone (token : Nat) (failed : Bool) (rtt : Int) (code message : String)
  | Closed (code : Nat) (reason : Bytes) (clean : Bool)

/-- The `done` of a `portWrite`. -/
inductive Completion where
  | closeFrameWritten
  | writeResult (chan token size : Nat)
  | streamClosed (chan token : Nat)

/-- The deadlines of a port that the core sets. -/
inductive Timer where
  | heartbeat
  | pong
  | closeHandshake
  deriving DecidableEq

/-! ## zlib -/

/-- One call of zlib's `inflate`: the input used, the output, for which there is room for
    `kInflateStep` bytes, and whether it went on, saw the end of a stream, or failed. -/
structure ZResult where
  consumed : Nat
  produced : Bytes
  streamEnd : Bool
  ok : Bool
  bounded : produced.length ≤ kInflateStep

/-- `Inflater`: the pushed input not yet used, and whether the message is finished. -/
structure Inflater where
  input : Bytes := []
  finished : Bool := false

/-- `Inflater::Step`. -/
inductive InflateStep where
  | Output (bytes : Bytes)
  | NeedInput
  | Done
  | Error

/-- More input for the inflater. -/
def Inflater.push (i : Inflater) (data : Bytes) : Inflater := { i with input := i.input ++ data }

/-- No input follows. -/
def Inflater.finish (i : Inflater) : Inflater :=
  { input := i.input ++ [0x00, 0x00, 0xff, 0xff], finished := true }

/-- Input is left. -/
def Inflater.hasInput (i : Inflater) : Bool := !i.input.isEmpty

/-- The loop of `Inflater::step`, on the results of its calls of zlib. -/
def Inflater.step : List ZResult → Inflater → Inflater × InflateStep
  | zs, i =>
      if i.input = [] then
        if i.finished then ({ input := [], finished := false }, .Done) else (i, .NeedInput)
      else
        match zs with
        | [] => (i, .Error)
        | z :: zs =>
            let i' := { i with input := i.input.drop z.consumed }
            if z.streamEnd then
              if z.produced ≠ [] then (i', .Output z.produced) else Inflater.step zs i'
            else if z.ok then
              if z.produced ≠ [] then (i', .Output z.produced)
              else if 0 < z.consumed then Inflater.step zs i' else (i', .Error)
            else (i', .Error)

/-- What comes from outside during one step: the clock, whether the port holds fewer than
    `kWriteHighBytes` unsent bytes, the results of `inflate`, the reason of a failed
    inflation, and the output of the deflater or its failure. -/
structure Choice where
  now : Int
  room : Bool
  inflate : List ZResult
  inflateError : String
  deflated : Option Bytes

/-! ## Statements -/

/-- Who called `WsDecoder::feed`. -/
inductive FeedCaller where
  | portData
  | processInput

/-- The pieces of the functions.  A piece named like a function is a call of it; the other
    names are for what remains of a function after a call it makes. -/
inductive Stmt where
  /-- Inside a port call. -/
  | inPort
  | processInput
  | processLoop
  | feedTurn (caller : FeedCaller) (data : Bytes)
  | feedPayload (caller : FeedCaller) (data : Bytes)
  | feedAfterChunk (caller : FeedCaller) (data : Bytes)
  | sink (event : Event)
  | pongMatch (payload : Bytes) (t : Int)
  | closeEcho (code : Nat)
  | sendEcho (code : Nat)
  | deliverData (data : Bytes)
  | pumpInflate
  | inflateLoop
  | inflateEnd
  | messageComplete
  | abandonRx
  | abandonActiveRx
  | deliverBody
  | bodyFail (err : Nat) (reason : String)
  | maybeFinishBody
  | releaseHold
  | deliverReads
  | endReadable (how : ReadEnd) (err : Nat) (reason : String)
  | checkPause
  | setDeadline (timer : Timer) (monoMs : Int)
  | resumePings (t : Int)
  | armHeartbeat (monoMs : Int)
  | armPongTimer
  | updateInterest
  | pumpWrites
  | pumpLoop
  | pushClose (code : Nat) (reason : Bytes)
  | failConnection (code : Nat) (text : String)
  | failWithClose (frameCode : Nat) (frameText : Bytes)
  | failWithTransport
  | complete (done : Completion) (err : Nat)
  | finishIfDone
  | closeServer
  | ended (err : Nat) (reason : String)
  | endedRest
  | postClosed
  | postClosedEvent
  | sendPing (payload : Bytes)
  | sendHeartbeat
  | eofClose
  | errorAbort
  | timeoutAbort

/-- The entry points of the core. -/
inductive Entry where
  | attach
  | detachPort
  | portData (data : Bytes)
  | portEof
  | portError (err : Nat) (reason : String)
  | portWritable
  | portTimer (timer : Timer)
  | portClosed
  /-- The port calls the `done` at this place of its list. -/
  | written (i : Nat) (err : Nat)
  | reqRead (chan token : Nat)
  | readClose (chan token : Nat)
  | readShutdown
  | reqWrite (chan token : Nat) (tag : Int) (bytes : Bytes)
  | writeClose (chan token : Nat)
  | writeShutdown
  | bodyReady (seq : Nat) (pairId : Int)
  | bodyReqRead (seq chan token : Nat)
  | bodyClose (chan token : Nat)
  | bodyCancel (seq : Nat)
  | openOutgoing (seq opcode : Nat)
  | outWrite (seq chan token : Nat) (bytes : Bytes)
  | outClose (seq chan token : Nat)
  | outAbort (seq : Nat)
  | startClose (code : Nat) (reason : Bytes) (token : Nat)
  | startPing (token : Nat)
  | abortNow

/-! ## State -/

/-- Where the core's port stands: `port_` is set, `attached_`, `transportGone_`. -/
structure Transport where
  port : Bool := false
  attached : Bool := false
  gone : Bool := false

/-- The members under "Input", "Raw data mode" and "Streamed receive"; `discard` and
    `stopped` are the decoder's. -/
structure Input where
  decoder : WsDecoder := {}
  discard : Bool := false
  stopped : Bool := false
  processing : Bool := false
  pendingIn : Bytes := []
  inputDone : Bool := false
  rxBytes : Nat := 0
  lastRxMs : Int := 0
  rxActive : Bool := false
  rxCompressed : Bool := false
  rxEndPending : Bool := false
  rxOpcode : Nat := 0
  rxSize : Nat := 0
  rxBuf : Bytes := []
  rxUtf8 : Utf8Validator := {}
  pumpingInflate : Bool := false
  inflater : Option Inflater := none
  body : Option Body := none
  bodySeq : Nat := 0
  held : Bool := false
  discardAfterMessage : Bool := false

/-- The members under "The readable". -/
structure Readable where
  msgQ : List InMsg := []
  msgQBytes : Nat := 0
  readReqs : List ReadReq := []
  readEnd : ReadEnd := .None
  readErr : Nat := 0
  readReason : String := ""
  readShut : Bool := false
  paused : Bool := false

/-- The members under "The writable"; the streams are in the order of their numbers, which
    is the order they are opened in. -/
structure Writable where
  outQ : List OutItem := []
  pumping : Bool := false
  writeClosed : Bool := false
  closeWaiters : List ReadReq := []
  closeOps : List Nat := []
  outStreams : List (Nat × OutStream) := []

/-- The members under "Close state". -/
structure Closing where
  closeQueued : Bool := false
  closeSent : Bool := false
  closeWritten : Bool := false
  closeReceived : Bool := false
  failed : Bool := false
  infoSet : Bool := false
  closeCode : Nat := kCloseAbnormal
  closeReason : Bytes := []
  clean : Bool := false
  closedPosted : Bool := false
  tcpClosing : Bool := false

/-- The members under "Ping / heartbeat". -/
structure Liveness where
  pingCounter : Nat := 0
  pings : List Ping := []
  hbPingSent : Bool := false
  rxAtPing : Nat := 0
  hbDeadline : Int := 0

/-- A frame handed to `portWrite`; a data frame with the place of its message. -/
structure Sent where
  frame : Frame
  place : Option Nat

/-- What the outside has seen: the opcodes of the data messages in the order they were
    queued, the streams opened, the frames handed to `portWrite`, the results and events
    posted, the `done`s not yet called, the deadlines the port holds, and whether the
    port's input is over. -/
structure Outside where
  queued : List Nat := []
  opened : List Nat := []
  sent : List Sent := []
  results : List ChannelResult := []
  events : List WsEvent := []
  writes : List Completion := []
  deadline : Timer → Int := fun _ => 0
  inputOver : Bool := false

/-- A `WsCore` and what the outside has seen of it. -/
structure State where
  cfg : WsConfig
  tr : Transport := {}
  rx : Input := {}
  rd : Readable := {}
  wr : Writable := {}
  cl : Closing := {}
  lv : Liveness := {}
  out : Outside := {}

/-- A piece's effect, and the pieces that follow. -/
abbrev Exec := State × List Stmt

end WsCore

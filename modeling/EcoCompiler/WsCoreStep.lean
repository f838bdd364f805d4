import EcoCompiler.WsCore
import Mathlib.Logic.Function.Basic

/-! # The functions of the WebSocket state machine

    * `WsCore.State.exec` — what one piece of a function does;
    * `WsCore.State.enter` — what an entry point does first.

    The `deflater_` and the random masks are not in the state: what the deflater gives is
    in the `Choice`, and a frame's mask does not change what it says. -/

namespace WsCore

open WsFrame (WsDecoder Event Utf8Validator kOpContinuation kOpText kOpBinary kOpClose
  kOpPing kOpPong kMaxControlPayload kCloseProtocolError kCloseInvalidData
  kCloseMessageTooBig)

/-- A piece followed by more pieces. -/
def Exec.andThen (e : Exec) (more : List Stmt) : Exec := (e.1, e.2 ++ more)

namespace State

/-! ## The port -/

/-- `port_ && !transportGone_`. -/
def live (s : State) : Bool := s.tr.port && !s.tr.gone

/-- `port_->portWrite`. -/
def portWrite (s : State) (frame : Frame) (place : Option Nat) (done : Option Completion) :
    Exec :=
  ({ s with
      out.sent := s.out.sent ++ [{ frame := frame, place := place }]
      out.writes := s.out.writes ++ done.toList }, [.inPort])

/-- `port_->portSetDeadline`. -/
def portSetDeadline (s : State) (timer : Timer) (monoMs : Int) : Exec :=
  ({ s with out.deadline := Function.update s.out.deadline timer monoMs }, [.inPort])

/-- `port_->portUpdateInterest` and `port_->portCloseGraceful`, whose arguments are fixed. -/
def portCall (s : State) : Exec := (s, [.inPort])

/-- `port_->portAbort`. -/
def portAbort (s : State) : Exec := ({ s with out.inputOver := true }, [.inPort])

/-- `postChannelResult`. -/
def post (s : State) (results : List ChannelResult) : State :=
  { s with out.results := s.out.results ++ results }

/-- `postWsEvent`. -/
def postEvents (s : State) (events : List WsEvent) : State :=
  { s with out.events := s.out.events ++ events }

/-- `wantsRead`. -/
def wantsRead (s : State) : Bool :=
  s.tr.attached && !s.tr.gone && (!s.rd.paused || s.rx.inputDone)

/-- `updateInterest`. -/
def updateInterest (s : State) : Exec := if s.live then s.portCall else (s, [])

/-! ## Ping and heartbeat -/

/-- `pingTimeoutMs`: the configured one, or the default. -/
def pingTimeoutMs (cfg : WsConfig) : Int :=
  if 0 < cfg.heartbeatTimeout then cfg.heartbeatTimeout else kDefaultPingTimeoutMs

/-- `armHeartbeat`. -/
def armHeartbeat (s : State) (monoMs : Int) : Exec :=
  if 0 < s.cfg.heartbeatInterval ∧ s.live then s.portSetDeadline .heartbeat monoMs else (s, [])

/-- The earliest deadline in `armPongTimer`. -/
def earliestDeadline (lv : Liveness) : Int :=
  lv.pings.foldl
    (fun earliest p =>
      if 0 < p.deadline ∧ (earliest = 0 ∨ p.deadline < earliest) then p.deadline else earliest)
    (if lv.hbPingSent then lv.hbDeadline else 0)

/-- `armPongTimer`: the timer of the next deadline of a ping, if there is one. -/
def armPongTimer (s : State) : Exec :=
  if s.live then s.portSetDeadline .pong (earliestDeadline s.lv) else (s, [])

/-- The event of `postPing`. -/
def pingDone (p : Ping) (failed : Bool) (rtt : Int) (code message : String) : WsEvent :=
  .PingDone p.token failed rtt code message

/-- The second half of the pong in `onControl`. -/
def pongMatch (s : State) (payload : Bytes) (t : Int) : Exec :=
  match s.lv.pings.findIdx? (fun p => p.payload == payload) with
  | none => (s, [.armPongTimer])
  | some i =>
      ({ s with lv.pings := s.lv.pings.drop (i + 1) }.postEvents
          ((s.lv.pings.take (i + 1)).map fun p => pingDone p false (t - p.sentMs) "" ""),
        [.armPongTimer])

/-! ## Frames -/

/-- `writeControl`. -/
def writeControl (s : State) (opcode : Nat) (payload : Bytes) (done : Option Completion) :
    Exec :=
  if s.live then s.portWrite { fin := true, opcode := opcode, payload := payload } none done
  else (s, (done.map fun d => Stmt.complete d ECANCELED).toList)

/-- `postWriteResult`. -/
def writeResult (chan token err : Nat) (reason : String) (n : Nat) : ChannelResult :=
  { channelId := chan, token := token, op := .Write, err := err, reason := reason, written := n }

/-- A Close result. -/
def closeResult (chan token err : Nat) (reason : String) : ChannelResult :=
  { channelId := chan, token := token, op := .Close, err := err, reason := reason }

/-- The Read result ECANCELED. -/
def readCanceled (rq : ReadReq) : ChannelResult :=
  { channelId := rq.chan, token := rq.token, op := .Read, err := ECANCELED }

/-! ## Pausing -/

/-- The condition `high` of `checkPause`. -/
def high (s : State) : Bool :=
  decide (kReadHighBytes ≤ s.rd.msgQBytes) || decide (kReadHighCount ≤ s.rd.msgQ.length)
    || s.rx.held
    || s.rx.body.any (fun b => decide (kReadHighBytes ≤ b.qBytes))
    || (s.rx.rxActive && s.rx.rxCompressed && s.rx.inflater.any Inflater.hasInput)

/-- `checkPause`: reading is paused above the limits and resumed below them. -/
def checkPause (c : Choice) (s : State) : Exec :=
  if s.high then
    if s.rd.paused then (s, [])
    else
      let s := { s with rd.paused := true }
      if s.live then (s.portSetDeadline .heartbeat 0).andThen [.setDeadline .pong 0] else (s, [])
  else if s.rd.paused then
    let t := c.now
    let s := { s with rd.paused := false, rx.lastRxMs := t }
    let more := [Stmt.resumePings t, .armPongTimer, .updateInterest]
    if s.lv.hbPingSent then ({ s with lv.hbDeadline := t + pingTimeoutMs s.cfg }, more)
    else if 0 < s.cfg.heartbeatInterval then
      (s, .armHeartbeat (t + s.cfg.heartbeatInterval) :: more)
    else (s, more)
  else (s, [])

/-- The loop over `pings_` in `checkPause`. -/
def resumePings (s : State) (t : Int) : Exec :=
  ({ s with lv.pings := s.lv.pings.map fun p => { p with deadline := t + pingTimeoutMs s.cfg } },
    [])

/-! ## The readable -/

/-- The answer to one read of `deliverReads`, when there is one. -/
def answerRead (rd : Readable) (rq : ReadReq) : Option (Readable × ChannelResult) :=
  match rd.msgQ with
  | m :: rest =>
      if m.ready then
        some ({ rd with
            msgQ := rest
            msgQBytes := rd.msgQBytes - (if m.tag ≤ 2 then m.data.length else 0) },
          { channelId := rq.chan, token := rq.token, op := .Read, tag := m.tag,
            text := m.tag != 2, bytes := m.data })
      else none
  | [] =>
      match rd.readEnd with
      | .Eof => some (rd, { channelId := rq.chan, token := rq.token, op := .Read, eof := true })
      | .Error =>
          some (rd,
            { channelId := rq.chan, token := rq.token, op := .Read,
              err := if rd.readErr ≠ 0 then rd.readErr else EIO, reason := rd.readReason })
      | .None => none

/-- The loop of `deliverReads` over the requests. -/
def answerReads (rd : Readable) : List ReadReq → Readable × List ChannelResult
  | [] => ({ rd with readReqs := [] }, [])
  | rq :: rest =>
      match answerRead rd rq with
      | none => ({ rd with readReqs := rq :: rest }, [])
      | some (rd', r) =>
          let (rd'', rs) := answerReads rd' rest
          (rd'', r :: rs)

/-- `deliverReads`: the waiting reads that can be answered are. -/
def deliverReads (s : State) : Exec :=
  let (rd, results) := answerReads s.rd s.rd.readReqs
  ({ s with rd := rd }.post results, [.checkPause])

/-- `endReadable`: no message comes any more, and the reads are told how it ended. -/
def endReadable (s : State) (how : ReadEnd) (err : Nat) (reason : String) : Exec :=
  if s.rd.readEnd ≠ .None then (s, [])
  else
    ({ s with rd.readEnd := how, rd.readErr := err, rd.readReason := reason },
      [.deliverReads])

/-- `onMessage`: a whole message joins the queue of those received. -/
def onMessage (s : State) (opcode : Nat) (payload : Bytes) : Exec :=
  if s.rx.inputDone || s.rd.readShut then (s, [])
  else
    ({ s with
        rd.msgQBytes := s.rd.msgQBytes + payload.length
        rd.msgQ := s.rd.msgQ ++ [{ tag := if opcode = kOpText then 1 else 2, data := payload }] },
      [.deliverReads])

/-! ## Streamed bodies -/

/-- The pieces joined to `bytes` while the result stays within `kBodyChunk`, and the rest. -/
def joinPieces (bytes : Bytes) : List Bytes → Bytes × List Bytes
  | [] => (bytes, [])
  | p :: q =>
      if bytes.length + p.length ≤ kBodyChunk then joinPieces (bytes ++ p) q
      else (bytes, p :: q)

/-- The answer to one read of `deliverBody`, when there is one. -/
def answerBodyRead (b : Body) (rq : ReadReq) : Option (Body × ChannelResult) :=
  match b.q with
  | p :: q =>
      let joined := joinPieces p q
      some ({ b with q := joined.2, qBytes := b.qBytes - joined.1.length },
        { channelId := rq.chan, token := rq.token, op := .Read, text := b.text,
          bytes := joined.1 })
  | [] =>
      match b.end_ with
      | .Eof =>
          some ({ b with endDelivered := true },
            { channelId := rq.chan, token := rq.token, op := .Read, eof := true })
      | .Error =>
          some ({ b with endDelivered := true },
            { channelId := rq.chan, token := rq.token, op := .Read,
              err := if b.err ≠ 0 then b.err else EIO, reason := b.reason })
      | .None => none

/-- The loop of `deliverBody` over the requests; it stops once the end is delivered. -/
def answerBodyReads (b : Body) : List ReadReq → Body × List ChannelResult
  | [] => ({ b with reads := [] }, [])
  | rq :: rest =>
      match answerBodyRead b rq with
      | none => ({ b with reads := rq :: rest }, [])
      | some (b', r) =>
          if b'.endDelivered then ({ b' with reads := rest }, [r])
          else
            let (b'', rs) := answerBodyReads b' rest
            (b'', r :: rs)

/-- Whether `deliverBody` resumes inflating. -/
def inflatingMore (rx : Input) : Bool :=
  rx.rxActive && rx.rxCompressed
    && rx.inflater.any fun i => i.hasInput || rx.rxEndPending

/-- `deliverBody`: the reads of the body that can be answered are. -/
def deliverBody (s : State) : Exec :=
  match s.rx.body with
  | none => (s, [])
  | some b =>
      let (b, results) := answerBodyReads b b.reads
      let s := { s with rx.body := some b }.post results
      (s, (if inflatingMore s.rx then [Stmt.pumpInflate] else [])
        ++ [.checkPause, .maybeFinishBody])

/-- `bodyFail`. -/
def bodyFail (s : State) (err : Nat) (reason : String) : Exec :=
  match s.rx.body with
  | none => (s, [])
  | some b =>
      let b :=
        if b.end_ = .None then
          { b with end_ := .Error, err := err, reason := reason, partialText := [] }
        else b
      ({ s with rx.body := some { b with messageDone := true } }, [.deliverBody])

/-- `bodyFail` where the body's message is not done. -/
def failBody (s : State) (err : Nat) (reason : String) : List Stmt :=
  if s.rx.body.any fun b => !b.messageDone then [.bodyFail err reason] else []

/-- Whether `maybeFinishBody` drops the body. -/
def Body.finished (b : Body) : Bool :=
  b.endDelivered || (b.cancelled && (b.messageDone || b.end_ == .Error))

/-- `maybeFinishBody`: a body that is over is dropped. -/
def maybeFinishBody (s : State) : Exec :=
  match s.rx.body with
  | none => (s, [])
  | some b =>
      if Body.finished b then ({ s with rx.body := none }, [.releaseHold]) else (s, [])

/-- `releaseHold`: the input held behind a body is taken up again. -/
def releaseHold (s : State) : Exec :=
  if s.rx.held then
    ({ s with rx.held := false }, [.checkPause, .processInput, .updateInterest])
  else (s, [])

/-- `startBody`. -/
def startBody (s : State) (opcode : Nat) : State :=
  let seq := s.rx.bodySeq + 1
  let text := decide (opcode = kOpText)
  let m : InMsg := { tag := if text then 3 else 4, ready := false, bodySeq := seq }
  let s : State := { s with
    rx.bodySeq := seq
    rx.body := some { seq := seq, text := text }
    rd.msgQ := s.rd.msgQ ++ [m] }
  s.postEvents [.BodyNeeded seq text]

/-! ## Input -/

/-- `decoder_.stop()`. -/
def stopDecoder (s : State) : State := { s with rx.stopped := true }

/-- `decoder_.setDiscardData(true)`. -/
def discardData (s : State) : State :=
  { s with rx.discard := true, rx.decoder := { s.rx.decoder with message := [] } }

/-- How the decoder is set up; memory is there for every message within the limit. -/
def decoderConfig (s : State) : WsFrame.Config :=
  { expectMasked := s.cfg.server
    maxMessage := if s.cfg.streamed then UInt64.ofNat (2 ^ 64 - 1)
      else UInt64.ofNat s.cfg.maxMessage
    raw := s.cfg.streamed || s.cfg.deflate
    allowRsv1 := s.cfg.deflate
    discard := s.rx.discard
    reserve := fun _ => true }

/-- `decoder_.failed()`. -/
def decoderFailed (s : State) : Bool := s.rx.decoder.failCode != 0

/-- `processInput`, unless it is at work further out. -/
def processInput (s : State) : Exec :=
  if s.rx.processing then (s, []) else ({ s with rx.processing := true }, [.processLoop])

/-- The loop of `processInput` and what follows it. -/
def processLoop (s : State) : Exec :=
  if !s.rx.inputDone && !s.decoderFailed && !s.rx.held && !s.rx.pendingIn.isEmpty then
    ({ s with rx.pendingIn := [], rx.stopped := false },
      [.feedTurn .processInput s.rx.pendingIn])
  else
    ({ s with
        rx.pendingIn := if s.rx.inputDone || s.decoderFailed then [] else s.rx.pendingIn
        rx.processing := false },
      if s.decoderFailed && !s.cl.failed then
        [.failConnection s.rx.decoder.failCode s.rx.decoder.failText]
      else [])

/-- What follows `decoder_.feed`, which has not taken `rest`. -/
def afterFeed (s : State) (caller : FeedCaller) (rest : Bytes) : Exec :=
  let pendingIn :=
    if !rest.isEmpty && !s.rx.inputDone && !s.decoderFailed then rest ++ s.rx.pendingIn
    else s.rx.pendingIn
  match caller with
  | .portData => ({ s with rx.pendingIn := pendingIn, rx.processing := false }, [.processInput])
  | .processInput => ({ s with rx.pendingIn := pendingIn }, [.processLoop])

/-- The head of the loop of `WsDecoder::feed` and its header part. -/
def feedTurn (s : State) (caller : FeedCaller) (data : Bytes) : Exec :=
  if s.decoderFailed || s.rx.stopped then s.afterFeed caller data
  else
    let d := s.rx.decoder
    if d.inPayload then (s, [.feedPayload caller data])
    else if d.hdr.length < WsFrame.headerNeed d.hdr then
      if data = [] then s.afterFeed caller data
      else
        let take := min (WsFrame.headerNeed d.hdr - d.hdr.length) data.length
        ({ s with rx.decoder := { d with hdr := d.hdr ++ data.take take } },
          [.feedTurn caller (data.drop take)])
    else
      let d' := WsFrame.startFrame s.decoderConfig d
      if d'.failCode ≠ 0 then { s with rx.decoder := d' }.afterFeed caller data
      else
        let d' := { d' with inPayload := true }
        ({ s with rx.decoder := d' },
          (WsFrame.startEvents s.decoderConfig d.inMessage d').map Stmt.sink
            ++ [.feedPayload caller data])

/-- The end of a frame in `WsDecoder::feed`. -/
def completeFrame (s : State) (caller : FeedCaller) (data : Bytes) : Exec :=
  let r := WsFrame.completeFrame s.decoderConfig s.rx.decoder
  ({ s with rx.decoder := r.1 }, r.2.map Stmt.sink ++ [.feedTurn caller data])

/-- The payload part of the loop of `WsDecoder::feed`. -/
def feedPayload (s : State) (caller : FeedCaller) (data : Bytes) : Exec :=
  if s.decoderFailed then s.afterFeed caller data
  else if 0 < s.rx.decoder.remaining then
    if data = [] then s.afterFeed caller data
    else
      let take := min s.rx.decoder.remaining data.length
      let r := WsFrame.takeChunk s.decoderConfig s.rx.decoder (data.take take)
      let s := { s with rx.decoder := r.1 }
      if r.1.failCode ≠ 0 then s.afterFeed caller (data.drop take)
      else (s, r.2.map Stmt.sink ++ [.feedAfterChunk caller (data.drop take)])
  else s.completeFrame caller data

/-- What follows a chunk in the loop of `WsDecoder::feed`. -/
def feedAfterChunk (s : State) (caller : FeedCaller) (data : Bytes) : Exec :=
  if s.decoderFailed || decide (0 < s.rx.decoder.remaining) then s.afterFeed caller data
  else s.completeFrame caller data

/-! ## Raw data mode -/

/-- `onDataStart`: a data message begins. -/
def onDataStart (s : State) (opcode : Nat) (compressed : Bool) : Exec :=
  if s.rx.inputDone then (s, [])
  else
    let s := { s with
      rx.rxActive := true
      rx.rxOpcode := opcode
      rx.rxCompressed := compressed
      rx.rxEndPending := false
      rx.rxSize := 0
      rx.rxBuf := []
      rx.rxUtf8 := {}
      rx.inflater := if compressed && s.rx.inflater.isNone then some {} else s.rx.inflater }
    (if s.cfg.streamed then s.startBody opcode else s, [])

/-- `onDataChunk`: payload to the inflater, or delivered as it is. -/
def onDataChunk (s : State) (data : Bytes) : Exec :=
  if s.rx.inputDone || !s.rx.rxActive then (s, [])
  else if s.rx.rxCompressed then
    ({ s with rx.inflater := s.rx.inflater.map (·.push data) }, [.pumpInflate])
  else (s, [.deliverData data])

/-- What `onDataEnd` does to the input in streamed mode. -/
def holdAfterMessage (s : State) : State :=
  if !s.cfg.streamed then s
  else if s.rx.discardAfterMessage then
    { s with rx.discardAfterMessage := false }.discardData
  else { s with rx.held := true }.stopDecoder

/-- `onDataEnd`: the message is over, but for what is left to inflate. -/
def onDataEnd (s : State) : Exec :=
  if s.rx.inputDone || !s.rx.rxActive then (s, [])
  else
    let s := s.holdAfterMessage
    if s.rx.rxCompressed then
      ({ s with rx.inflater := s.rx.inflater.map Inflater.finish, rx.rxEndPending := true },
        [.pumpInflate, .checkPause])
    else (s, [.messageComplete, .checkPause])

/-- The body after `n` payload bytes of its message. -/
def Body.append (b : Body) (data : Bytes) : Body :=
  if b.text then
    let text := b.partialText ++ data
    let k := utf8CompletePrefix text
    if k = 0 then { b with partialText := text }
    else
      { b with qBytes := b.qBytes + k, q := b.q ++ [text.take k], partialText := text.drop k }
  else { b with qBytes := b.qBytes + data.length, q := b.q ++ [data] }

/-- `deliverData`: data to the body, or to the message collected. -/
def deliverData (s : State) (data : Bytes) : Exec :=
  if !s.rx.rxActive || s.cl.failed || (s.rx.inputDone && !s.rx.rxEndPending) then (s, [])
  else
    let text := decide (s.rx.rxOpcode = kOpText)
    let s := { s with rx.rxUtf8 := if text then s.rx.rxUtf8.feed data else s.rx.rxUtf8 }
    if text && s.rx.rxUtf8.failed then
      (s, [.failConnection kCloseInvalidData "invalid UTF-8 in a text message"])
    else if !s.cfg.streamed then
      let s := { s with rx.rxSize := s.rx.rxSize + data.length }
      if s.cfg.maxMessage < s.rx.rxSize then
        (s, [.failConnection kCloseMessageTooBig "the message is larger than maxMessageSize"])
      else if s.rd.readShut then (s, [])
      else ({ s with rx.rxBuf := s.rx.rxBuf ++ data }, [])
    else
      match s.rx.body with
      | none => (s, [])
      | some b =>
          if b.cancelled || b.end_ != .None then (s, [])
          else
            let b' := Body.append b data
            let s := { s with rx.body := some b' }
            if b.text && utf8CompletePrefix (b.partialText ++ data) == 0 then (s, [])
            else (s, [.deliverBody])

/-- `pumpInflate`, unless it is at work further out. -/
def pumpInflate (s : State) : Exec :=
  if s.rx.pumpingInflate then (s, []) else ({ s with rx.pumpingInflate := true }, [.inflateLoop])

/-- The condition of the loop of `pumpInflate`. -/
def inflating (s : State) : Bool :=
  s.rx.rxActive && s.rx.rxCompressed && s.rx.inflater.isSome && !s.cl.failed
    && (!s.rx.inputDone || s.rx.rxEndPending)

/-- Whether the body of the message being inflated is full. -/
def bodyFull (s : State) : Bool :=
  s.cfg.streamed && s.rx.body.any fun b =>
    !b.cancelled && b.end_ == .None && decide (kReadHighBytes ≤ b.qBytes)

/-- One turn of the loop of `pumpInflate`. -/
def inflateLoop (c : Choice) (s : State) : Exec :=
  if !s.inflating || s.bodyFull then (s, [.inflateEnd])
  else
    match s.rx.inflater with
    | none => (s, [.inflateEnd])
    | some i =>
        let r := i.step c.inflate
        let s := { s with rx.inflater := some r.1 }
        match r.2 with
        | .Output bytes => (s, [.deliverData bytes, .inflateLoop])
        | .NeedInput => (s, [.inflateEnd])
        | .Done => (s, [.messageComplete, .inflateEnd])
        | .Error =>
            (s, [.failConnection kCloseInvalidData ("invalid compressed data: " ++ c.inflateError),
              .inflateEnd])

/-- What follows the loop of `pumpInflate`. -/
def inflateEnd (s : State) : Exec := ({ s with rx.pumpingInflate := false }, [.checkPause])

/-- `messageComplete`. -/
def messageComplete (s : State) : Exec :=
  if !s.rx.rxActive then (s, [])
  else
    let s := { s with rx.rxActive := false, rx.rxEndPending := false }
    if s.rx.rxOpcode = kOpText ∧ !s.rx.rxUtf8.complete then
      (s, [.failConnection kCloseInvalidData "invalid UTF-8 in a text message"])
    else if !s.cfg.streamed then
      let payload := s.rx.rxBuf
      let s := { s with rx.rxBuf := [] }
      if s.rd.readShut then (s, []) else (s, [.sink (.onMessage s.rx.rxOpcode payload)])
    else
      match s.rx.body with
      | none => (s, [])
      | some b =>
          let b := { b with
            messageDone := true
            end_ := if b.end_ = .None then .Eof else b.end_ }
          ({ s with rx.body := some b }, [.deliverBody, .maybeFinishBody])

/-- `abandonRx`: the message that is being received is given up. -/
def abandonRx (s : State) : State :=
  { s with
    rx.rxActive := false
    rx.rxEndPending := false
    rx.rxBuf := []
    rx.inflater := s.rx.inflater.map fun _ => {} }

/-! ## The writable -/

/-- `failStream`: the stream after, and the results posted. -/
def failStream (st : OutStream) (reason : String) : OutStream × List ChannelResult :=
  let failed := st.chunks.map fun c => writeResult c.chan c.token ECANCELED reason 0
  let close := if st.closing ∧ st.closeToken ≠ 0 then
      [closeResult st.closeChan st.closeToken ECANCELED reason] else []
  ({ st with
      chunks := []
      closeToken := if st.closing then 0 else st.closeToken
      dead := true },
    failed ++ close)

/-- The result `failQueued` posts for an entry of the queue. -/
def failItem (reason : String) : OutItem → List ChannelResult
  | .message _ item => [writeResult item.chan item.token ECANCELED reason 0]
  | .close _ => []
  | .stream _ _ => []

/-- `failQueued`. -/
def failQueued (s : State) (reason : String) : State :=
  let results := s.wr.outQ.flatMap (failItem reason)
    ++ s.wr.outStreams.flatMap fun e => (failStream e.2 reason).2
  let s : State := { s with
    wr.outQ := []
    wr.outStreams := s.wr.outStreams.map fun e => (e.1, (failStream e.2 reason).1) }
  s.post results

/-- `outStreams_.find`. -/
def findStream (s : State) (seq : Nat) : Option OutStream := s.wr.outStreams.lookup seq

/-- The stream `seq` replaced. -/
def setStream (s : State) (seq : Nat) (st : OutStream) : State :=
  { s with wr.outStreams := s.wr.outStreams.map fun e => if e.1 = seq then (seq, st) else e }

/-- `outStreams_.erase`. -/
def eraseStream (s : State) (seq : Nat) : State :=
  { s with wr.outStreams := s.wr.outStreams.filter fun e => e.1 != seq }

/-- `queueMessage`: a message takes the next place. -/
def queueMessage (s : State) (opcode : Nat) (bytes : Bytes) (chan token : Nat) : State :=
  { s with
    out.queued := s.out.queued ++ [opcode]
    wr.outQ := s.wr.outQ ++ [.message s.out.queued.length
      { frame := bytes, opcode := opcode, chan := chan, token := token, size := bytes.length }] }

/-- `pumpWrites`, unless it is at work further out. -/
def pumpWrites (s : State) : Exec :=
  if s.wr.pumping || !s.live then (s, [])
  else ({ s with wr.pumping := true }, [.pumpLoop])

/-- `item` with its payload compressed, or chosen to go uncompressed; `none` when the
    deflater fails.  A stream does not read `compressed`. -/
def prepare (c : Choice) (compress : Bool) (item : DataItem) : Option DataItem :=
  if item.prepared || !compress then some { item with prepared := true }
  else c.deflated.map fun z => { item with prepared := true, frame := z, compressed := true }

/-- The end of `pumpWrites` where the deflater failed. -/
def compressionFailed (s : State) : Exec :=
  ({ s with wr.pumping := false }, [.failConnection kCloseInternalError "compression failed"])

/-- A chunk of the stream at the head of the queue in `pumpWrites`. -/
def pumpChunk (c : Choice) (s : State) (place seq : Nat) (st : OutStream) (chunk : DataItem)
    (rest : List DataItem) : Exec :=
  match prepare c st.compress chunk with
  | none =>
      let st := { st with chunks := { chunk with prepared := true } :: rest }
      (s.setStream seq st).compressionFailed
  | some chunk =>
      let n := min kFragment (chunk.frame.length - chunk.offset)
      let first := !st.started
      let frame : Frame :=
        { fin := false
          opcode := if first then st.opcode else kOpContinuation
          payload := (chunk.frame.drop chunk.offset).take n
          rsv1 := first && st.compress }
      let chunk := { chunk with offset := chunk.offset + n }
      if chunk.offset < chunk.frame.length then
        ((s.setStream seq { st with started := true, chunks := chunk :: rest }).portWrite frame
          (some place) none).andThen [.pumpLoop]
      else
        ((s.setStream seq { st with started := true, chunks := rest }).portWrite frame
          (some place) (some (.writeResult chunk.chan chunk.token chunk.size))).andThen [.pumpLoop]

/-- The FIN frame of the stream at the head of the queue in `pumpWrites`. -/
def pumpFin (s : State) (place seq : Nat) (st : OutStream) (rest : List OutItem) : Exec :=
  let first := !st.started
  let frame : Frame :=
    { fin := true
      opcode := if first then st.opcode else kOpContinuation
      payload := if st.compress && st.started then [0] else [] }
  let s := State.eraseStream { s with wr.outQ := rest } seq
  (s.portWrite frame (some place) (some (.streamClosed st.closeChan st.closeToken))).andThen
    [.pumpLoop]

/-- A message at the head of the queue in `pumpWrites`. -/
def pumpMessage (c : Choice) (s : State) (place : Nat) (item : DataItem) (rest : List OutItem) :
    Exec :=
  let compress := s.cfg.deflate && decide (s.cfg.threshold ≤ (item.frame.length : Int))
  match prepare c compress item with
  | none =>
      let s := { s with wr.outQ := OutItem.message place { item with prepared := true } :: rest }
      s.compressionFailed
  | some item =>
      let n := min kFragment (item.frame.length - item.offset)
      let first := item.offset == 0
      let fin := decide (item.frame.length ≤ item.offset + n)
      let frame : Frame :=
        { fin := fin
          opcode := if first then item.opcode else kOpContinuation
          payload := (item.frame.drop item.offset).take n
          rsv1 := first && item.compressed }
      if fin then
        let s := { s with wr.outQ := rest }
        (s.portWrite frame (some place)
          (some (.writeResult item.chan item.token item.size))).andThen [.pumpLoop]
      else
        let item := { item with offset := item.offset + n }
        let s := { s with wr.outQ := OutItem.message place item :: rest }
        (s.portWrite frame (some place) none).andThen [.pumpLoop]

/-- The end of `pumpWrites`. -/
def pumpStop (s : State) : Exec := ({ s with wr.pumping := false }, [])

/-- One turn of the loop of `pumpWrites`. -/
def pumpLoop (c : Choice) (s : State) : Exec :=
  match s.wr.outQ with
  | [] => s.pumpStop
  | item :: rest =>
      if !s.live || !c.room then s.pumpStop
      else
        match item with
        | .close payload =>
            let s := { s with wr.outQ := rest, cl.closeSent := true }
            (s.portWrite (closeFrame payload) none (some .closeFrameWritten)).andThen [.pumpLoop]
        | .stream place seq =>
            match s.findStream seq with
            | none => ({ s with wr.outQ := rest }, [.pumpLoop])
            | some st =>
                match st.chunks with
                | chunk :: chunks => s.pumpChunk c place seq st chunk chunks
                | [] => if st.closing then s.pumpFin place seq st rest else s.pumpStop
        | .message place item => s.pumpMessage c place item rest

/-! ## Failing and ending -/

/-- `setCloseInfo`: the first code and reason stay. -/
def setCloseInfo (s : State) (code : Nat) (reason : Bytes) (clean : Bool) : State :=
  if s.cl.infoSet then s
  else
    { s with
      cl.infoSet := true
      cl.closeCode := code
      cl.closeReason := reason
      cl.clean := clean }

/-- `failWith`: everything open fails, and a Close is sent. -/
def failWith (s : State) (frameCode : Nat) (frameText : Bytes) (infoCode : Nat)
    (infoReason : Bytes) (readErr : Nat) (readReason : String) : Exec :=
  if s.cl.failed || s.cl.closedPosted then (s, [])
  else
    let s := { s with cl.failed := true, rx.inputDone := true }.stopDecoder.setCloseInfo
      infoCode (truncateUtf8 infoReason (kMaxControlPayload - 2)) false
    (s, s.failBody readErr readReason
      ++ [.abandonRx, .endReadable .Error readErr readReason, .failWithClose frameCode frameText,
        .postClosed, .failWithTransport])

/-- `failConnection`: a violation by the peer. -/
def failConnection (s : State) (code : Nat) (text : String) : Exec :=
  s.failWith code (utf8 text) code (utf8 text) (errnoFor code) (reasonFor code text)

/-- `heartbeatTimeout`. -/
def heartbeatTimeout (s : State) : Exec :=
  s.failWith kCloseGoingAway [] kCloseAbnormal [] ETIMEDOUT "heartbeat ETIMEDOUT"

/-- The part of `failWith` that sends the Close. -/
def failWithClose (s : State) (frameCode : Nat) (frameText : Bytes) : Exec :=
  let s := { s with wr.writeClosed := true }.failQueued kSocketClosed
  if s.cl.closeSent then (s, [])
  else
    { s with cl.closeQueued := true, cl.closeSent := true }.writeControl kOpClose
      (closePayload frameCode frameText) (some .closeFrameWritten)

/-- The end of `failWith`. -/
def failWithTransport (s : State) : Exec :=
  if !s.cl.tcpClosing && s.live then { s with cl.tcpClosing := true }.portCall else (s, [])

/-- `ended`: the transport is gone. -/
def ended (s : State) (err : Nat) (reason : String) : Exec :=
  let s := s.setCloseInfo kCloseAbnormal [] false
  (s, s.failBody err reason
    ++ [.abandonActiveRx, .endReadable .Error err reason, .endedRest, .postClosed])

/-- The waiting close requests completed, with `err` for a `writeClose`. -/
def completeCloses (s : State) (err : Nat) (reason : String) : State :=
  let ops := (s.wr.closeOps.filter (· != 0)).map WsEvent.OpDone
  let waiters := s.wr.closeWaiters.map fun w => closeResult w.chan w.token err reason
  let s : State := { s with wr.closeOps := [], wr.closeWaiters := [] }
  (s.postEvents ops).post waiters

/-- The part of `ended` after the readable's end. -/
def endedRest (s : State) : Exec :=
  let s := { s with wr.writeClosed := true }.failQueued kSocketClosed
  (if s.cl.closeWritten then s else s.completeCloses ECANCELED kSocketClosed, [])

/-- `postClosed`: the program is told once that the WebSocket closed. -/
def postClosed (s : State) : Exec :=
  if s.cl.closedPosted then (s, [])
  else
    let s := { s with cl.closedPosted := true }.setCloseInfo kCloseAbnormal [] false
    let pings := s.lv.pings
    let s := { s with lv.pings := [] }.postEvents
      (pings.map fun p => pingDone p true 0 "ECANCELED" "ping ECANCELED: the WebSocket closed")
    if s.live then
      (s.portSetDeadline .heartbeat 0).andThen [.setDeadline .pong 0, .postClosedEvent]
    else (s, [.postClosedEvent])

/-- The end of `postClosed`. -/
def postClosedEvent (s : State) : Exec :=
  ({ s with lv.hbPingSent := false }.postEvents
    [.Closed s.cl.closeCode s.cl.closeReason s.cl.clean], [])

/-- `closeFrameWritten`. -/
def closeFrameWritten (s : State) (err : Nat) : Exec :=
  if err ≠ 0 then
    (if s.cl.closedPosted then s
      else
        { s with
          cl.infoSet := true
          cl.closeCode := kCloseAbnormal
          cl.closeReason := []
          cl.clean := false }, [])
  else ({ s with cl.closeWritten := true }.completeCloses 0 "", [.finishIfDone])

/-- A `done` called with `err`. -/
def complete (s : State) (done : Completion) (err : Nat) : Exec :=
  match done with
  | .closeFrameWritten => s.closeFrameWritten err
  | .writeResult chan token size =>
      (s.post [if err = 0 then writeResult chan token 0 "" size
        else writeResult chan token err
          (if err = ECANCELED then kSocketClosed else "write " ++ s.cfg.errnoName err) 0], [])
  | .streamClosed chan token =>
      (s.post [closeResult chan token err (if err ≠ 0 then kSocketClosed else "")], [])

/-- `finishIfDone`: both Closes went through. -/
def finishIfDone (s : State) : Exec :=
  if !s.cl.closeWritten || !s.cl.closeReceived || s.cl.failed then (s, [])
  else (s, [.postClosed, .closeServer])

/-- The end of `finishIfDone`. -/
def closeServer (s : State) : Exec :=
  if s.cfg.server && !s.cl.tcpClosing && s.live then
    { s with cl.tcpClosing := true }.portCall
  else (s, [])

/-- `queueGracefulClose`: a Close behind the messages queued. -/
def queueGracefulClose (s : State) (code : Nat) (reason : Bytes) : Exec :=
  if s.cl.closeQueued then (s, [])
  else
    let s := { s with cl.closeQueued := true, wr.writeClosed := true }.discardData
    (s, (if s.rx.rxActive && !s.rx.rxEndPending then
          s.failBody ECANCELED kSocketClosed ++ [.abandonRx]
        else [])
      ++ [.releaseHold, .pushClose code reason])

/-- The part of `queueGracefulClose` that queues the frame. -/
def pushClose (c : Choice) (s : State) (code : Nat) (reason : Bytes) : Exec :=
  let s := { s with wr.outQ := s.wr.outQ ++ [OutItem.close (closePayload code reason)] }
  if s.live then
    (s.portSetDeadline .closeHandshake (c.now + s.cfg.closeTimeout)).andThen [.pumpWrites]
  else (s, [.pumpWrites])

/-! ## Control frames -/

/-- The echo of a Close, in `onControl`. -/
def closeEcho (c : Choice) (s : State) (code : Nat) : Exec :=
  if s.cl.closeQueued then (s, [])
  else
    let s := { s with cl.closeQueued := true, wr.writeClosed := true }.failQueued kSocketClosed
    if s.live then
      (s.portSetDeadline .closeHandshake (c.now + s.cfg.closeTimeout)).andThen [.sendEcho code]
    else (s, [.sendEcho code])

/-- The Close that answers the peer's is written at once. -/
def sendEcho (s : State) (code : Nat) : Exec :=
  { s with cl.closeSent := true }.writeControl kOpClose
    (if code = kCloseNoStatus then [] else closePayload code []) (some .closeFrameWritten)

/-- The Close of `onControl`. -/
def onClose (s : State) (payload : Bytes) : Exec :=
  let s := { s with cl.closeReceived := true, rx.inputDone := true }.stopDecoder
  match parseClose payload with
  | .error (failCode, failText) => (s, [.failConnection failCode failText])
  | .ok (code, reason) =>
      let s := s.setCloseInfo code reason true
      (s, (if s.rx.rxActive && !s.rx.rxEndPending then
            s.failBody ECANCELED kSocketClosed ++ [.abandonRx]
          else [])
        ++ [.endReadable .Eof 0 "", .closeEcho code, .finishIfDone])

/-- The pong of `onControl`. -/
def onPong (c : Choice) (s : State) (payload : Bytes) : Exec :=
  let t := c.now
  if s.lv.hbPingSent && payload.length == 8 && decide ((payload.getD 0 0) &&& 0x80 ≠ 0) then
    ({ s with lv.hbPingSent := false, lv.hbDeadline := 0 },
      (if 0 < s.cfg.heartbeatInterval then [Stmt.armHeartbeat (t + s.cfg.heartbeatInterval)]
        else []) ++ [.pongMatch payload t])
  else (s, [.pongMatch payload t])

/-- `onControl`. -/
def onControl (c : Choice) (s : State) (opcode : Nat) (payload : Bytes) : Exec :=
  if s.rx.inputDone then (s, [])
  else if opcode = kOpPing then
    if s.cl.closeQueued then (s, []) else s.writeControl kOpPong payload none
  else if opcode = kOpPong then s.onPong c payload
  else if opcode = kOpClose then s.onClose payload
  else (s, [])

/-- A callback of the decoder. -/
def sink (c : Choice) (s : State) : Event → Exec
  | .onMessage opcode payload => s.onMessage opcode payload
  | .onControl opcode payload => s.onControl c opcode payload
  | .onDataStart opcode compressed => s.onDataStart opcode compressed
  | .onDataChunk data => s.onDataChunk data
  | .onDataEnd => s.onDataEnd

/-! ## Pieces -/

/-- What one piece does. -/
def exec (c : Choice) (s : State) : Stmt → Exec
  | .inPort => (s, [])
  | .processInput => s.processInput
  | .processLoop => s.processLoop
  | .feedTurn caller data => s.feedTurn caller data
  | .feedPayload caller data => s.feedPayload caller data
  | .feedAfterChunk caller data => s.feedAfterChunk caller data
  | .sink event => s.sink c event
  | .pongMatch payload t => s.pongMatch payload t
  | .closeEcho code => s.closeEcho c code
  | .sendEcho code => s.sendEcho code
  | .deliverData data => s.deliverData data
  | .pumpInflate => s.pumpInflate
  | .inflateLoop => s.inflateLoop c
  | .inflateEnd => s.inflateEnd
  | .messageComplete => s.messageComplete
  | .abandonRx => (s.abandonRx, [])
  | .abandonActiveRx => (if s.rx.rxActive then s.abandonRx else s, [])
  | .deliverBody => s.deliverBody
  | .bodyFail err reason => s.bodyFail err reason
  | .maybeFinishBody => s.maybeFinishBody
  | .releaseHold => s.releaseHold
  | .deliverReads => s.deliverReads
  | .endReadable how err reason => s.endReadable how err reason
  | .checkPause => s.checkPause c
  | .setDeadline timer monoMs => s.portSetDeadline timer monoMs
  | .resumePings t => s.resumePings t
  | .armHeartbeat monoMs => s.armHeartbeat monoMs
  | .armPongTimer => s.armPongTimer
  | .updateInterest => s.updateInterest
  | .pumpWrites => s.pumpWrites
  | .pumpLoop => s.pumpLoop c
  | .pushClose code reason => s.pushClose c code reason
  | .failConnection code text => s.failConnection code text
  | .failWithClose frameCode frameText => s.failWithClose frameCode frameText
  | .failWithTransport => s.failWithTransport
  | .complete done err => s.complete done err
  | .finishIfDone => s.finishIfDone
  | .closeServer => s.closeServer
  | .ended err reason => s.ended err reason
  | .endedRest => s.endedRest
  | .postClosed => s.postClosed
  | .postClosedEvent => s.postClosedEvent
  | .sendPing payload => s.writeControl kOpPing payload none
  | .sendHeartbeat =>
      { s with lv.pingCounter := s.lv.pingCounter + 1 }.writeControl kOpPing
        (pingPayload (heartbeatCount (s.lv.pingCounter + 1))) none
  | .eofClose =>
      if !s.cl.tcpClosing && s.tr.port then { s with cl.tcpClosing := true }.portCall else (s, [])
  | .errorAbort => if s.tr.port then s.portAbort else (s, [])
  | .timeoutAbort => if s.live then s.portAbort else (s, [])

/-! ## Entry points -/

/-- `attach`: the port is there. -/
def attach (c : Choice) (s : State) : Exec :=
  let s := { s with tr.port := true, tr.attached := true, rx.lastRxMs := c.now }
  (s, (if 0 < s.cfg.heartbeatInterval then
      [Stmt.armHeartbeat (c.now + s.cfg.heartbeatInterval)] else []) ++ [.pumpWrites])

/-- `portData`. -/
def portData (c : Choice) (s : State) (data : Bytes) : Exec :=
  let s := { s with rx.rxBytes := s.rx.rxBytes + data.length, rx.lastRxMs := c.now }
  if s.rx.inputDone then (s, [])
  else if s.rx.processing || s.rx.held || !s.rx.pendingIn.isEmpty then
    ({ s with rx.pendingIn := s.rx.pendingIn ++ data }, [.processInput])
  else
    ({ s with rx.processing := true, rx.stopped := false }, [.feedTurn .portData data])

/-- `portEof`. -/
def portEof (s : State) : Exec :=
  if s.cl.closeReceived || s.cl.failed then (s, [.eofClose])
  else (s, [.ended ECONNRESET kSocketClosed, .eofClose])

/-- `portClosed`. -/
def portClosed (s : State) : Exec :=
  ({ s with tr.gone := true }, [.ended ECANCELED kSocketClosed])

/-- `portTimer`, for the heartbeat. -/
def heartbeatTimer (c : Choice) (s : State) : Exec :=
  let t := c.now
  if decide (s.cfg.heartbeatInterval ≤ 0) || s.cl.closeQueued || s.cl.closeReceived || s.cl.failed
      || s.rd.paused || s.lv.hbPingSent then (s, [])
  else if t - s.rx.lastRxMs < s.cfg.heartbeatInterval then
    (s, [.armHeartbeat (s.rx.lastRxMs + s.cfg.heartbeatInterval)])
  else
    ({ s with
        lv.hbPingSent := true
        lv.rxAtPing := s.rx.rxBytes
        lv.hbDeadline := t + pingTimeoutMs s.cfg }, [.armPongTimer, .sendHeartbeat])

/-- Whether a ping's deadline has passed. -/
def Ping.expired (t : Int) (p : Ping) : Bool := decide (0 < p.deadline) && decide (p.deadline ≤ t)

/-- `portTimer`, for the deadline of a ping. -/
def pongTimer (c : Choice) (s : State) : Exec :=
  let t := c.now
  if s.rd.paused then (s, [])
  else
    let s := { s with lv.pings := s.lv.pings.filter fun p => !Ping.expired t p }.postEvents
      ((s.lv.pings.filter (Ping.expired t)).map fun p =>
        pingDone p true 0 "ETIMEDOUT" "ping ETIMEDOUT")
    if s.lv.hbPingSent && decide (0 < s.lv.hbDeadline) && decide (s.lv.hbDeadline ≤ t) then
      if s.lv.rxAtPing < s.rx.rxBytes then
        ({ s with lv.hbPingSent := false, lv.hbDeadline := 0 },
          [.armHeartbeat (max t (s.rx.lastRxMs + s.cfg.heartbeatInterval)), .armPongTimer])
      else s.heartbeatTimeout
    else (s, [.armPongTimer])

/-- `portTimer`. -/
def portTimer (c : Choice) (s : State) (timer : Timer) : Exec :=
  let s := { s with out.deadline := Function.update s.out.deadline timer 0 }
  match timer with
  | .heartbeat => s.heartbeatTimer c
  | .pong => s.pongTimer c
  | .closeHandshake => (s, [.ended ETIMEDOUT kSocketClosed, .timeoutAbort])

/-- `reqRead`. -/
def reqRead (s : State) (chan token : Nat) : Exec :=
  let rq : ReadReq := { chan := chan, token := token }
  if s.rd.readShut then (s.post [readCanceled rq], [])
  else ({ s with rd.readReqs := s.rd.readReqs ++ [rq] }, [.deliverReads])

/-- The `BodyDispose` of an announcement that `readShutdown` drops. -/
def disposeOf (m : InMsg) : List WsEvent :=
  if 3 ≤ m.tag ∧ m.ready then [.BodyDispose m.pairId] else []

/-- What `readShutdown` does to the message being received. -/
def shutReceiver (s : State) : State :=
  if s.cfg.streamed && s.rx.decoder.inMessage then { s with rx.discardAfterMessage := true }
  else
    let s := s.discardData
    if s.rx.rxActive && !s.cfg.streamed then s.abandonRx else s

/-- `readShutdown`: the program reads no more. -/
def readShutdown (s : State) : Exec :=
  let s := { s with rd.readShut := true }.shutReceiver
  let s := ({ s with rd.msgQ := [], rd.msgQBytes := 0, rd.readReqs := [] }.postEvents
    (s.rd.msgQ.flatMap disposeOf)).post (s.rd.readReqs.map readCanceled)
  if s.rx.held && s.rx.body.any (fun b => b.pairId == 0) then
    ({ s with rx.body := s.rx.body.map fun b => { b with cancelled := true } },
      [.maybeFinishBody, .releaseHold, .checkPause])
  else (s, [.releaseHold, .checkPause])

/-- `reqWrite`: a message of the program. -/
def reqWrite (s : State) (chan token : Nat) (tag : Int) (bytes : Bytes) : Exec :=
  if s.wr.writeClosed || s.tr.gone then
    (s.post [writeResult chan token ECANCELED kSocketClosed 0], [])
  else (s.queueMessage (if tag = 1 then kOpText else kOpBinary) bytes chan token, [.pumpWrites])

/-- `writeClose`. -/
def writeClose (s : State) (chan token : Nat) : Exec :=
  if s.cl.closeWritten || s.cl.closedPosted || s.tr.gone then
    (s.post [if !s.cl.clean && !s.cl.closeWritten then
        closeResult chan token ECANCELED kSocketClosed
      else closeResult chan token 0 ""], [])
  else
    let waiter : ReadReq := { chan := chan, token := token }
    let s := { s with wr.closeWaiters := s.wr.closeWaiters ++ [waiter] }
    s.queueGracefulClose kCloseNormal []

/-- `writeShutdown`. -/
def writeShutdown (s : State) : Exec :=
  if s.wr.writeClosed || s.cl.failed || s.cl.closedPosted || s.tr.gone then (s, [])
  else (s, [.failConnection kCloseInternalError "the writable was cancelled"])

/-- The announcement of body `seq` made ready, the first that waits for its pair. -/
def makeReady (seq : Nat) (pairId : Int) : List InMsg → Option (List InMsg)
  | [] => none
  | m :: q =>
      if !m.ready && m.bodySeq == seq then
        some ({ m with ready := true, pairId := pairId, data := utf8 (toString pairId) } :: q)
      else (makeReady seq pairId q).map (m :: ·)

/-- `bodyReady`: the program has the pair of a body. -/
def bodyReady (s : State) (seq : Nat) (pairId : Int) : Exec :=
  match makeReady seq pairId s.rd.msgQ with
  | none => (s.postEvents [.BodyDispose pairId], [])
  | some q =>
      ({ s with
          rd.msgQ := q
          rx.body := s.rx.body.map fun b =>
            if b.seq = seq then { b with pairId := pairId } else b }, [.deliverReads])

/-- Whether body `seq` is the current one and not cancelled. -/
def isOpenBody (s : State) (seq : Nat) : Bool := s.rx.body.any fun b => b.seq == seq && !b.cancelled

/-- `bodyReqRead`. -/
def bodyReqRead (s : State) (seq chan token : Nat) : Exec :=
  let rq : ReadReq := { chan := chan, token := token }
  if s.isOpenBody seq then
    ({ s with rx.body := s.rx.body.map fun b => { b with reads := b.reads ++ [rq] } },
      [.deliverBody])
  else (s.post [readCanceled rq], [])

/-- `bodyCancel`: the program gives a body up. -/
def bodyCancel (s : State) (seq : Nat) : Exec :=
  match s.rx.body with
  | none => (s, [])
  | some b =>
      if b.seq ≠ seq || b.cancelled then (s, [])
      else
        let s := { s with rx.body := some { b with
          cancelled := true, q := [], qBytes := 0, partialText := [], reads := [] } }.post
            (b.reads.map readCanceled)
        (s, (if s.rx.rxActive && s.rx.rxCompressed then [Stmt.pumpInflate] else [])
          ++ [.maybeFinishBody, .checkPause])

/-- A stream as `openOutgoing` makes it. -/
def newStream (s : State) (opcode : Nat) (dead : Bool) : OutStream :=
  { opcode := opcode, compress := s.cfg.deflate, dead := dead }

/-- `outStreams_.emplace`. -/
def emplaceStream (s : State) (seq : Nat) (st : OutStream) : State :=
  if (s.findStream seq).isSome then s
  else { s with wr.outStreams := s.wr.outStreams ++ [(seq, st)] }

/-- `openOutgoing`: a streamed message takes its place in the queue. -/
def openOutgoing (s : State) (seq opcode : Nat) : Exec :=
  let s := { s with out.opened := s.out.opened ++ [seq] }
  if s.wr.writeClosed || s.tr.gone then (s.emplaceStream seq (s.newStream opcode true), [])
  else
    let s := s.emplaceStream seq (s.newStream opcode false)
    ({ s with
        out.queued := s.out.queued ++ [opcode]
        wr.outQ := s.wr.outQ ++ [OutItem.stream s.out.queued.length seq] }, [.pumpWrites])

/-- The stream `seq` where writes and a close are accepted. -/
def openStream (s : State) (seq : Nat) : Option OutStream :=
  (s.findStream seq).filter fun st => !st.dead && !st.closing && !s.tr.gone

/-- `outWrite`: a piece of a streamed message. -/
def outWrite (s : State) (seq chan token : Nat) (bytes : Bytes) : Exec :=
  match s.openStream seq with
  | none => (s.post [writeResult chan token ECANCELED kSocketClosed 0], [])
  | some st =>
      if bytes = [] then (s.post [writeResult chan token 0 "" 0], [])
      else
        (s.setStream seq { st with chunks := st.chunks ++
          [{ frame := bytes, chan := chan, token := token, size := bytes.length }] },
          [.pumpWrites])

/-- `outClose`: the end of a streamed message. -/
def outClose (s : State) (seq chan token : Nat) : Exec :=
  match s.openStream seq with
  | none =>
      ((if (s.findStream seq).any (·.dead) then s.eraseStream seq else s).post
        [closeResult chan token ECANCELED kSocketClosed], [])
  | some st =>
      (s.setStream seq { st with closing := true, closeChan := chan, closeToken := token },
        [.pumpWrites])

/-- Whether an entry of the queue is the place of stream `seq`. -/
def OutItem.isPlaceOf (seq : Nat) : OutItem → Bool
  | .stream _ seq' => seq' == seq
  | _ => false

/-- `outAbort`: a streamed message given up. -/
def outAbort (s : State) (seq : Nat) : Exec :=
  match s.findStream seq with
  | none => (s, [])
  | some st =>
      if st.started && !s.cl.failed && !s.cl.closedPosted && !s.tr.gone then
        (s, [.failConnection kCloseInternalError "an outgoing message stream was cancelled"])
      else
        let s := s.post (failStream st "the message was cancelled").2
        let s := { s with wr.outQ := s.wr.outQ.eraseP (OutItem.isPlaceOf seq) }
        (s.eraseStream seq, [.pumpWrites])

/-- `startClose`. -/
def startClose (s : State) (code : Nat) (reason : Bytes) (token : Nat) : Exec :=
  if s.cl.closeWritten || s.cl.closedPosted || s.tr.gone then
    (s.postEvents (([token].filter (· != 0)).map WsEvent.OpDone), [])
  else { s with wr.closeOps := s.wr.closeOps ++ [token] }.queueGracefulClose code reason

/-- `startPing`. -/
def startPing (c : Choice) (s : State) (token : Nat) : Exec :=
  if s.cl.closeQueued || s.cl.closedPosted || s.tr.gone || s.cl.failed then
    (s.postEvents [.PingDone token true 0 "ECANCELED" "ping ECANCELED: the WebSocket is closing"],
      [])
  else
    let n := s.lv.pingCounter + 1
    let payload := pingPayload (pingCount n)
    let deadline := if s.rd.paused then 0 else c.now + pingTimeoutMs s.cfg
    let p : Ping := { payload := payload, token := token, sentMs := c.now, deadline := deadline }
    ({ s with lv.pingCounter := n, lv.pings := s.lv.pings ++ [p] },
      [.armPongTimer, .sendPing payload])

/-- What an entry point does first. -/
def enter (c : Choice) (s : State) : Entry → Exec
  | .attach => s.attach c
  | .detachPort => ({ s with tr.port := false, tr.gone := true }, [])
  | .portData data => s.portData c data
  | .portEof => { s with out.inputOver := true }.portEof
  | .portError err reason =>
      ({ s with out.inputOver := true },
        [.ended (if err ≠ 0 then err else EIO) reason, .errorAbort])
  | .portWritable => s.pumpWrites
  | .portTimer timer => s.portTimer c timer
  | .portClosed => { s with out.inputOver := true }.portClosed
  | .written i err =>
      match s.out.writes[i]? with
      | none => (s, [])
      | some done => { s with out.writes := s.out.writes.eraseIdx i }.complete done err
  | .reqRead chan token => s.reqRead chan token
  | .readClose chan token => (s.post [closeResult chan token 0 ""], [])
  | .readShutdown => s.readShutdown
  | .reqWrite chan token tag bytes => s.reqWrite chan token tag bytes
  | .writeClose chan token => s.writeClose chan token
  | .writeShutdown => s.writeShutdown
  | .bodyReady seq pairId => s.bodyReady seq pairId
  | .bodyReqRead seq chan token => s.bodyReqRead seq chan token
  | .bodyClose chan token => (s.post (if token = 0 then [] else [closeResult chan token 0 ""]), [])
  | .bodyCancel seq => s.bodyCancel seq
  | .openOutgoing seq opcode => s.openOutgoing seq opcode
  | .outWrite seq chan token bytes => s.outWrite seq chan token bytes
  | .outClose seq chan token => s.outClose seq chan token
  | .outAbort seq => s.outAbort seq
  | .startClose code reason token => s.startClose code reason token
  | .startPing token => s.startPing c token
  | .abortNow => if s.live then s.portAbort else s.portClosed

end State

end WsCore

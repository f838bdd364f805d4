import EcoCompiler.WsCoreTalk

/-! # The pieces that send nothing

    Most pieces neither send nor queue anything and leave the close state as it is.

    * `WsCore.Quiet` — what such a piece leaves alone;
    * `WsCore.exec_quiet` — every piece that is not one of the few in `Stmt.isWriter` is
      one of them. -/

namespace WsCore

open State

/-- What `SendInv` reads. -/
structure Sending where
  outQ : List OutItem
  outStreams : List (Nat × OutStream)
  writeClosed : Bool
  closeQueued : Bool
  closeSent : Bool
  tr : Transport
  failed : Bool
  closedPosted : Bool
  closeWritten : Bool
  queued : List Nat
  opened : List Nat
  sent : List Sent
  writes : List Completion

/-- The part of a state that sending looks at. -/
def State.sending (s : State) : Sending :=
  { outQ := s.wr.outQ, outStreams := s.wr.outStreams, writeClosed := s.wr.writeClosed
    closeQueued := s.cl.closeQueued, closeSent := s.cl.closeSent, tr := s.tr
    failed := s.cl.failed, closedPosted := s.cl.closedPosted, closeWritten := s.cl.closeWritten
    queued := s.out.queued, opened := s.out.opened, sent := s.out.sent, writes := s.out.writes }

/-- A piece that sends nothing, queues nothing and leaves the close state as it is. -/
structure Quiet (s : State) (e : Exec) : Prop where
  same : e.1.sending = s.sending
  input : s.rx.inputDone = true → e.1.rx.inputDone = true
  tame : isTame e.2 = true

theorem Quiet.of {s s' : State} {ks : List Stmt} (h : s'.sending = s.sending)
    (hinput : s.rx.inputDone = true → s'.rx.inputDone = true) (htame : isTame ks = true) :
    Quiet s (s', ks) := ⟨h, hinput, htame⟩

/-- A piece after a change that `SendInv` does not see. -/
theorem Quiet.after {s s' : State} {e : Exec} (hquiet : Quiet s' e)
    (h : s'.sending = s.sending) (hinput : s.rx.inputDone = true → s'.rx.inputDone = true) :
    Quiet s e :=
  ⟨hquiet.same.trans h, fun hi => hquiet.input (hinput hi), hquiet.tame⟩

/-! ## Helpers of several functions -/

/-- What follows the failure of a body stays tame. -/
theorem failBody_tame (s : State) (err : Nat) (reason : String) {ks : List Stmt}
    (h : isTame ks = true) : isTame (s.failBody err reason ++ ks) = true := by
  rw [failBody]
  split <;> exact h

/-- Noting how the WebSocket closed sends nothing. -/
theorem setCloseInfo_sending (s : State) (code : Nat) (reason : Bytes) (clean : Bool) :
    (s.setCloseInfo code reason clean).sending = s.sending := by
  rw [setCloseInfo]
  split <;> rfl

/-- Noting how the WebSocket closed leaves the input as it is. -/
theorem setCloseInfo_rx (s : State) (code : Nat) (reason : Bytes) (clean : Bool) :
    (s.setCloseInfo code reason clean).rx = s.rx := by
  rw [setCloseInfo]
  split <;> rfl

/-! ## Pausing, the readable and the body -/

/-- Asking the port to read or not to sends nothing. -/
theorem updateInterest_quiet (s : State) : Quiet s s.updateInterest := by
  rw [updateInterest]
  split <;> exact Quiet.of rfl id rfl

/-- Setting the heartbeat timer sends nothing. -/
theorem armHeartbeat_quiet (s : State) (t : Int) : Quiet s (s.armHeartbeat t) := by
  rw [armHeartbeat]
  split <;> exact Quiet.of rfl id rfl

/-- Setting the pong timer sends nothing. -/
theorem armPongTimer_quiet (s : State) : Quiet s s.armPongTimer := by
  rw [armPongTimer]
  split <;> exact Quiet.of rfl id rfl

/-- Pausing and resuming send nothing. -/
theorem checkPause_quiet (c : Choice) (s : State) : Quiet s (s.checkPause c) := by
  unfold checkPause
  dsimp only
  repeat' split
  all_goals exact Quiet.of rfl id rfl

/-- The pings that a pong answers are only reported. -/
theorem pongMatch_quiet (s : State) (payload : Bytes) (t : Int) :
    Quiet s (s.pongMatch payload t) := by
  rw [pongMatch]
  split <;> exact Quiet.of rfl id rfl

/-- Answering reads sends nothing. -/
theorem deliverReads_quiet (s : State) : Quiet s s.deliverReads := Quiet.of rfl id rfl

/-- The end of the readable sends nothing. -/
theorem endReadable_quiet (s : State) (how : ReadEnd) (err : Nat) (reason : String) :
    Quiet s (s.endReadable how err reason) := by
  rw [endReadable]
  split <;> exact Quiet.of rfl id rfl

/-- Answering the reads of a body sends nothing. -/
theorem deliverBody_quiet (s : State) : Quiet s s.deliverBody := by
  unfold deliverBody
  dsimp only
  split
  · exact Quiet.of rfl id rfl
  · refine Quiet.of rfl id ?_
    split <;> rfl

/-- A body that fails is only reported to its readers. -/
theorem bodyFail_quiet (s : State) (err : Nat) (reason : String) :
    Quiet s (s.bodyFail err reason) := by
  unfold bodyFail
  split <;> exact Quiet.of rfl id rfl

/-- A body that is over is only dropped. -/
theorem maybeFinishBody_quiet (s : State) : Quiet s s.maybeFinishBody := by
  unfold maybeFinishBody
  repeat' split
  all_goals exact Quiet.of rfl id rfl

/-- Taking up held input sends nothing. -/
theorem releaseHold_quiet (s : State) : Quiet s s.releaseHold := by
  rw [releaseHold]
  split <;> exact Quiet.of rfl id rfl

/-! ## Input -/

/-- Starting on the input sends nothing. -/
theorem processInput_quiet (s : State) : Quiet s s.processInput := by
  rw [processInput]
  split <;> exact Quiet.of rfl id rfl

/-- A turn of the input loop sends nothing; what it goes on with may. -/
theorem processLoop_quiet (s : State) : Quiet s s.processLoop := by
  unfold processLoop
  split
  · exact Quiet.of rfl id rfl
  · refine Quiet.of rfl id ?_
    split <;> rfl

/-- Going back to the caller of the decoder sends nothing. -/
theorem afterFeed_quiet (s : State) (caller : FeedCaller) (rest : Bytes) :
    Quiet s (s.afterFeed caller rest) := by
  unfold afterFeed
  cases caller <;> exact Quiet.of rfl id rfl

/-- The callbacks of the decoder are tame. -/
theorem sinks_tame (events : List WsFrame.Event) {ks : List Stmt} (h : isTame ks = true) :
    isTame (events.map Stmt.sink ++ ks) = true := by
  induction events with
  | nil => exact h
  | cons event events ih => exact ih

/-- The end of a frame only calls back. -/
theorem completeFrame_quiet (s : State) (caller : FeedCaller) (data : Bytes) :
    Quiet s (s.completeFrame caller data) :=
  Quiet.of rfl id (sinks_tame _ rfl)

/-- A turn of the decoder only calls back. -/
theorem feedTurn_quiet (s : State) (caller : FeedCaller) (data : Bytes) :
    Quiet s (s.feedTurn caller data) := by
  unfold feedTurn
  dsimp only
  repeat' split
  · exact afterFeed_quiet s caller data
  · exact Quiet.of rfl id rfl
  · exact afterFeed_quiet s caller data
  · exact Quiet.of rfl id rfl
  · exact (afterFeed_quiet _ caller data).after rfl id
  · exact Quiet.of rfl id (sinks_tame _ rfl)

/-- A piece of payload only calls back. -/
theorem feedPayload_quiet (s : State) (caller : FeedCaller) (data : Bytes) :
    Quiet s (s.feedPayload caller data) := by
  unfold feedPayload
  dsimp only
  repeat' split
  · exact afterFeed_quiet s caller data
  · exact afterFeed_quiet s caller data
  · exact (afterFeed_quiet _ caller _).after rfl id
  · exact Quiet.of rfl id (sinks_tame _ rfl)
  · exact completeFrame_quiet s caller data

/-- What follows a piece of payload only calls back. -/
theorem feedAfterChunk_quiet (s : State) (caller : FeedCaller) (data : Bytes) :
    Quiet s (s.feedAfterChunk caller data) := by
  rw [feedAfterChunk]
  split
  · exact afterFeed_quiet s caller data
  · exact completeFrame_quiet s caller data

/-- A message received sends nothing. -/
theorem onMessage_quiet (s : State) (opcode : Nat) (payload : Bytes) :
    Quiet s (s.onMessage opcode payload) := by
  rw [onMessage]
  split <;> exact Quiet.of rfl id rfl

/-- The start of a data message sends nothing. -/
theorem onDataStart_quiet (s : State) (opcode : Nat) (compressed : Bool) :
    Quiet s (s.onDataStart opcode compressed) := by
  unfold onDataStart
  dsimp only
  repeat' split
  all_goals exact Quiet.of rfl id rfl

/-- A piece of a data message sends nothing. -/
theorem onDataChunk_quiet (s : State) (data : Bytes) : Quiet s (s.onDataChunk data) := by
  unfold onDataChunk
  repeat' split
  all_goals exact Quiet.of rfl id rfl

/-- The end of a data message sends nothing. -/
theorem onDataEnd_quiet (s : State) : Quiet s s.onDataEnd := by
  unfold onDataEnd holdAfterMessage
  dsimp only
  repeat' split
  all_goals exact Quiet.of rfl id rfl

/-- A pong sends nothing. -/
theorem onPong_quiet (c : Choice) (s : State) (payload : Bytes) : Quiet s (s.onPong c payload) := by
  unfold onPong
  dsimp only
  repeat' split
  all_goals exact Quiet.of rfl id rfl

/-! ## Raw data mode -/

/-- Data delivered sends nothing. -/
theorem deliverData_quiet (s : State) (data : Bytes) : Quiet s (s.deliverData data) := by
  unfold deliverData
  dsimp only
  repeat' split
  all_goals exact Quiet.of rfl id rfl

/-- Starting the inflater sends nothing. -/
theorem pumpInflate_quiet (s : State) : Quiet s s.pumpInflate := by
  rw [pumpInflate]
  split <;> exact Quiet.of rfl id rfl

/-- A turn of the inflater sends nothing. -/
theorem inflateLoop_quiet (c : Choice) (s : State) : Quiet s (s.inflateLoop c) := by
  unfold inflateLoop
  dsimp only
  repeat' split
  all_goals exact Quiet.of rfl id rfl

/-- A complete message sends nothing. -/
theorem messageComplete_quiet (s : State) : Quiet s s.messageComplete := by
  unfold messageComplete
  dsimp only
  repeat' split
  all_goals exact Quiet.of rfl id rfl

/-! ## Failing and ending -/

/-- Letting go of the port after a failure sends nothing. -/
theorem failWithTransport_quiet (s : State) : Quiet s s.failWithTransport := by
  rw [failWithTransport]
  split <;> exact Quiet.of rfl id rfl

/-- A server that lets go of its port sends nothing. -/
theorem closeServer_quiet (s : State) : Quiet s s.closeServer := by
  rw [closeServer]
  split <;> exact Quiet.of rfl id rfl

/-- A connection that ended sends nothing more. -/
theorem ended_quiet (s : State) (err : Nat) (reason : String) : Quiet s (s.ended err reason) := by
  refine Quiet.of (setCloseInfo_sending _ _ _ _) (fun hi => ?_) ?_
  · rw [setCloseInfo_rx]
    exact hi
  · exact failBody_tame _ _ _ rfl

/-- Starting the write pump sends nothing; its turns do. -/
theorem pumpWrites_quiet (s : State) : Quiet s s.pumpWrites := by
  rw [pumpWrites]
  split <;> exact Quiet.of rfl id rfl

/-! ## Pieces -/

/-- The pieces that send or queue something, or change how far the WebSocket is closed. -/
def Stmt.isWriter : Stmt → Bool
  | .closeEcho _ => true
  | .sendEcho _ => true
  | .pumpLoop => true
  | .pushClose _ _ => true
  | .failWithClose _ _ => true
  | .endedRest => true
  | .sendPing _ => true
  | .sendHeartbeat => true
  | .sink (.onControl _ _) => true
  | .failConnection _ _ => true
  | .complete _ _ => true
  | .finishIfDone => true
  | .postClosed => true
  | _ => false

/-- Every other piece sends nothing and queues nothing. -/
theorem exec_quiet (c : Choice) (s : State) {p : Stmt} (hp : p.isWriter = false) :
    Quiet s (s.exec c p) := by
  -- a piece that writes is excluded by `hp`, each other one has its lemma
  cases p with
  | inPort => exact Quiet.of rfl id rfl
  | processInput => exact processInput_quiet s
  | processLoop => exact processLoop_quiet s
  | feedTurn caller data => exact feedTurn_quiet s caller data
  | feedPayload caller data => exact feedPayload_quiet s caller data
  | feedAfterChunk caller data => exact feedAfterChunk_quiet s caller data
  | sink event =>
      cases event with
      | onMessage opcode payload => exact onMessage_quiet s opcode payload
      | onControl opcode payload => cases hp
      | onDataStart opcode compressed => exact onDataStart_quiet s opcode compressed
      | onDataChunk data => exact onDataChunk_quiet s data
      | onDataEnd => exact onDataEnd_quiet s
  | pongMatch payload t => exact pongMatch_quiet s payload t
  | closeEcho code => cases hp
  | sendEcho code => cases hp
  | deliverData data => exact deliverData_quiet s data
  | pumpInflate => exact pumpInflate_quiet s
  | inflateLoop => exact inflateLoop_quiet c s
  | inflateEnd => exact Quiet.of rfl id rfl
  | messageComplete => exact messageComplete_quiet s
  | abandonRx => exact Quiet.of rfl id rfl
  | abandonActiveRx =>
      show Quiet s (if s.rx.rxActive then s.abandonRx else s, [])
      split <;> exact Quiet.of rfl id rfl
  | deliverBody => exact deliverBody_quiet s
  | bodyFail err reason => exact bodyFail_quiet s err reason
  | maybeFinishBody => exact maybeFinishBody_quiet s
  | releaseHold => exact releaseHold_quiet s
  | deliverReads => exact deliverReads_quiet s
  | endReadable how err reason => exact endReadable_quiet s how err reason
  | checkPause => exact checkPause_quiet c s
  | setDeadline timer monoMs => exact Quiet.of rfl id rfl
  | resumePings t => exact Quiet.of rfl id rfl
  | armHeartbeat monoMs => exact armHeartbeat_quiet s monoMs
  | armPongTimer => exact armPongTimer_quiet s
  | updateInterest => exact updateInterest_quiet s
  | pumpWrites => exact pumpWrites_quiet s
  | pumpLoop => cases hp
  | pushClose code reason => cases hp
  | failConnection code text => cases hp
  | failWithClose frameCode frameText => cases hp
  | failWithTransport => exact failWithTransport_quiet s
  | complete done err => cases hp
  | finishIfDone => cases hp
  | closeServer => exact closeServer_quiet s
  | ended err reason => exact ended_quiet s err reason
  | endedRest => cases hp
  | postClosed => cases hp
  | postClosedEvent => exact Quiet.of rfl id rfl
  | sendPing payload => cases hp
  | sendHeartbeat => cases hp
  | eofClose =>
      show Quiet s (if _ then _ else _)
      split <;> exact Quiet.of rfl id rfl
  | errorAbort =>
      show Quiet s (if _ then _ else _)
      split <;> exact Quiet.of rfl id rfl
  | timeoutAbort =>
      show Quiet s (if _ then _ else _)
      split <;> exact Quiet.of rfl id rfl

/-! ## Entry points -/

/-- Bytes received send nothing by themselves. -/
theorem portData_quiet (c : Choice) (s : State) (data : Bytes) : Quiet s (s.portData c data) := by
  unfold portData
  dsimp only
  repeat' split
  all_goals exact Quiet.of rfl id rfl

/-- The end of what the peer sends. -/
theorem portEof_quiet (s : State) : Quiet s s.portEof := by
  rw [portEof]
  split <;> exact Quiet.of rfl id rfl

/-- The heartbeat timer only asks for a ping. -/
theorem heartbeatTimer_quiet (c : Choice) (s : State) : Quiet s (s.heartbeatTimer c) := by
  unfold heartbeatTimer
  dsimp only
  repeat' split
  all_goals exact Quiet.of rfl id rfl

/-- The readable shut by the program. -/
theorem readShutdown_quiet (s : State) : Quiet s s.readShutdown := by
  unfold readShutdown shutReceiver
  dsimp only
  repeat' split
  all_goals exact Quiet.of rfl id rfl

/-- A body announced to the program. -/
theorem bodyReady_quiet (s : State) (seq : Nat) (pairId : Int) :
    Quiet s (s.bodyReady seq pairId) := by
  rw [bodyReady]
  split <;> exact Quiet.of rfl id rfl

/-- A read of a body. -/
theorem bodyReqRead_quiet (s : State) (seq chan token : Nat) :
    Quiet s (s.bodyReqRead seq chan token) := by
  unfold bodyReqRead
  dsimp only
  split <;> exact Quiet.of rfl id rfl

/-- A body given up by the program. -/
theorem bodyCancel_quiet (s : State) (seq : Nat) : Quiet s (s.bodyCancel seq) := by
  unfold bodyCancel
  dsimp only
  repeat' split
  all_goals exact Quiet.of rfl id rfl

/-- A ping of the program is put in line. -/
theorem startPing_quiet (c : Choice) (s : State) (token : Nat) : Quiet s (s.startPing c token) := by
  unfold startPing
  dsimp only
  split <;> exact Quiet.of rfl id rfl

/-- A read of the program is put in line. -/
theorem reqRead_quiet (s : State) (chan token : Nat) : Quiet s (s.reqRead chan token) := by
  unfold reqRead
  dsimp only
  split <;> exact Quiet.of rfl id rfl

end WsCore

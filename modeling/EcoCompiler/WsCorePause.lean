import EcoCompiler.WsCoreQuiet
import Mathlib.Algebra.BigOperators.Group.List.Basic

/-! # Why reading is paused

    * `WsCore.HeldByProgram` — the program can still take or cancel something;
    * `WsCore.NoStall` — the moves that neither leave an unannounced body half inflated
      nor drop a failure of the connection;
    * `WsCore.PauseOk` — what holds between two pieces while input is open, from which a
      pause has a reason;
    * `WsCore.PauseInv` — `PauseOk` now, or after the pieces that run before the port can
      call back. -/

namespace WsCore

open State

/-! ## The property -/

/-- The program can still take or cancel something: a queued message, or a body with data,
    with an end not read, or not inflated to its end. -/
def HeldByProgram (s : State) : Prop :=
  (s.rd.readShut = false ∧ s.rd.msgQ ≠ [])
    ∨ ∃ b, s.rx.body = some b ∧ b.cancelled = false
        ∧ (b.q ≠ [] ∨ (b.end_ ≠ .None ∧ b.endDelivered = false) ∨ inflatingMore s.rx = true)

/-- What the port promises: no data after its input is over, and the timer of the closing
    handshake only where its deadline is set. -/
def Entry.Promised (s : State) : Entry → Prop
  | .portData _ => s.out.inputOver = false
  | .portTimer .closeHandshake => s.out.deadline .closeHandshake ≠ 0
  | _ => True

/-- The two ways to stall: `readShutdown` cancels an unannounced body whose message is
    still being inflated, and a failure of the connection is dropped because Closed was
    posted, while input is open. -/
def stalls (c : Config) : Move → Bool
  | .enter .readShutdown =>
      c.s.rx.held && c.s.rx.body.any fun b => b.pairId == 0 && !b.messageDone
  | .run =>
      match c.stack with
      | .failConnection _ _ :: _ => c.s.cl.closedPosted && !c.s.rx.inputDone
      | _ => false
  | _ => false

/-- The move keeps the port's promises and does not stall. -/
def NoStall (c : Config) (m : Move) : Prop :=
  stalls c m = false ∧ ∀ e, m = .enter e → e.Promised c.s

/-! ## The part of the state that reading depends on -/

/-- What the invariant looks at. -/
structure Reading where
  streamed : Bool
  inMessage : Bool
  discard : Bool
  stopped : Bool
  processing : Bool
  pendingIn : Bytes
  rxActive : Bool
  rxCompressed : Bool
  rxEndPending : Bool
  pumpingInflate : Bool
  inflater : Option Inflater
  body : Option Body
  held : Bool
  discardAfterMessage : Bool
  msgQ : List InMsg
  msgQBytes : Nat
  readShut : Bool
  paused : Bool
  failed : Bool
  inputOver : Bool
  handshake : Int

/-- The part of a state that the invariant looks at. -/
def State.reading (s : State) : Reading where
  streamed := s.cfg.streamed
  inMessage := s.rx.decoder.inMessage
  discard := s.rx.discard
  stopped := s.rx.stopped
  processing := s.rx.processing
  pendingIn := s.rx.pendingIn
  rxActive := s.rx.rxActive
  rxCompressed := s.rx.rxCompressed
  rxEndPending := s.rx.rxEndPending
  pumpingInflate := s.rx.pumpingInflate
  inflater := s.rx.inflater
  body := s.rx.body
  held := s.rx.held
  discardAfterMessage := s.rx.discardAfterMessage
  msgQ := s.rd.msgQ
  msgQBytes := s.rd.msgQBytes
  readShut := s.rd.readShut
  paused := s.rd.paused
  failed := s.cl.failed
  inputOver := s.out.inputOver
  handshake := s.out.deadline .closeHandshake

namespace Reading

/-- The condition `high` of `checkPause`. -/
def high (r : Reading) : Bool :=
  decide (kReadHighBytes ≤ r.msgQBytes) || decide (kReadHighCount ≤ r.msgQ.length)
    || r.held
    || r.body.any (fun b => decide (kReadHighBytes ≤ b.qBytes))
    || (r.rxActive && r.rxCompressed && r.inflater.any Inflater.hasInput)

/-- Whether inflating the message is not over. -/
def inflateDue (r : Reading) : Bool :=
  r.rxActive && r.rxCompressed && r.inflater.any fun i => i.hasInput || r.rxEndPending

end Reading

theorem reading_high (s : State) : s.reading.high = s.high := rfl

theorem reading_inflateDue (s : State) : s.reading.inflateDue = inflatingMore s.rx := rfl

/-! ## Kinds of pieces -/

/-- The pieces that end in `checkPause`. -/
def Stmt.isResume : Stmt → Bool
  | .checkPause => true
  | .deliverReads => true
  | .inflateLoop => true
  | .inflateEnd => true
  | _ => false

/-- The pieces between the `processing_ = true` and the `processing_ = false`. -/
def Stmt.isFeeder : Stmt → Bool
  | .processLoop => true
  | .feedTurn _ _ => true
  | .feedPayload _ _ => true
  | .feedAfterChunk _ _ => true
  | _ => false

/-- A piece in the middle of a frame that is fed. -/
def Stmt.isMidFeed : Stmt → Bool
  | .feedPayload _ _ => true
  | .feedAfterChunk _ _ => true
  | _ => false

/-- A turn of the loop of `feed`. -/
def Stmt.isFeedTurn : Stmt → Bool
  | .feedTurn _ _ => true
  | _ => false

/-- The pieces between the `pumpingInflate_ = true` and the `pumpingInflate_ = false`. -/
def Stmt.isPump : Stmt → Bool
  | .inflateLoop => true
  | .inflateEnd => true
  | _ => false

/-- A turn of the inflater. -/
def Stmt.isLoop : Stmt → Bool
  | .inflateLoop => true
  | _ => false

/-- A look whether the body is finished. -/
def Stmt.isFinish : Stmt → Bool
  | .maybeFinishBody => true
  | _ => false

/-- The release of the hold. -/
def Stmt.isRelease : Stmt → Bool
  | .releaseHold => true
  | _ => false

/-- Pending input taken up. -/
def Stmt.isInput : Stmt → Bool
  | .processInput => true
  | _ => false

/-- The message being received given up. -/
def Stmt.isAbandon : Stmt → Bool
  | .abandonRx => true
  | .abandonActiveRx => true
  | _ => false

/-- The pieces that run as soon as they are pushed, or only once input is over. -/
def Stmt.isTop : Stmt → Bool
  | .sink _ => true
  | .deliverData _ => true
  | .pumpInflate => true
  | .messageComplete => true
  | .deliverBody => true
  | .bodyFail _ _ => true
  | .ended _ _ => true
  | .failConnection _ _ => true
  | .closeEcho _ => true
  | .setDeadline .closeHandshake _ => true
  | _ => false

/-- The pieces that are of none of these kinds, but may resume or finish a body. -/
def Stmt.isLight (p : Stmt) : Bool :=
  !p.isFeeder && !p.isPump && !p.isInput && !p.isAbandon && !p.isTop && !p.isPushClose
    && !p.isRelease

/-- The pieces that are of none of these kinds, but may resume. -/
def Stmt.isMild (p : Stmt) : Bool := p.isLight && !p.isFinish

/-- Below every piece of `pumpInflate` stands one that feeds the decoder. -/
def fedPumps : List Stmt → Bool
  | [] => true
  | p :: k => (!p.isPump || k.any Stmt.isFeeder) && fedPumps k

/-! ## The invariant -/

/-- The bytes of a queued message that count. -/
def InMsg.bytes (m : InMsg) : Nat := if m.tag ≤ 2 then m.data.length else 0

/-- The queue of the readable. -/
structure QueueSound (r : Reading) : Prop where
  bytes : r.msgQBytes = (r.msgQ.map InMsg.bytes).sum
  unready : ∀ m ∈ r.msgQ, m.ready = false → 3 ≤ m.tag
  shut : r.readShut = true → r.msgQ = []

/-- A body. -/
structure BodySound (b : Body) : Prop where
  bytes : b.qBytes = (b.q.map List.length).sum
  ended : b.end_ ≠ .None ↔ b.messageDone = true
  delivered : b.endDelivered = true → b.q = [] ∧ b.end_ ≠ .None
  cancelled : b.cancelled = true → b.q = []

/-- A body whose reads have been answered as far as they can be. -/
structure BodySettled (b : Body) (k : List Stmt) : Prop where
  reads : b.reads ≠ [] → (b.q = [] ∧ b.end_ = .None) ∨ Body.finished b = true
  finished : Body.finished b = true → k.any Stmt.isFinish = true

/-- The body can be read or cancelled, which goes on inflating. -/
def Spare (r : Reading) : Prop :=
  ∃ b, r.body = some b ∧ b.cancelled = false ∧ b.end_ = .None ∧ b.reads = []

/-- The inflater holds nothing but the rest of the message being received. -/
structure InflaterSound (r : Reading) : Prop where
  left : ∀ i, r.inflater = some i → i.hasInput = true → r.rxActive = true ∧ r.rxCompressed = true
  finished : ∀ i, r.inflater = some i → i.finished = true →
    r.rxActive = true ∧ r.rxCompressed = true ∧ r.rxEndPending = true
  ready : r.rxActive = true → r.rxCompressed = true →
    ∃ i, r.inflater = some i ∧ (r.rxEndPending = true → i.finished = true)

/-- The pieces on the stack. -/
structure StackSound (r : Reading) (k : List Stmt) : Prop where
  top : k.any Stmt.isTop = false
  feeders : k.countP Stmt.isFeeder = if r.processing then 1 else 0
  pumps : k.countP Stmt.isPump = if r.pumpingInflate then 1 else 0
  fed : r.streamed = false → fedPumps k = true
  pending : r.pendingIn ≠ [] →
    r.held = true ∨ r.processing = true ∨ k.any Stmt.isInput = true
  closing : r.handshake ≠ 0 ∨ k.any Stmt.isPushClose = true → r.discard = true
  release : k.any Stmt.isRelease = true → r.discard = true
  abandoned : k.any Stmt.isAbandon = true → ∀ b, r.body = some b → b.end_ ≠ .None
  /-- A message received while an earlier one is being inflated. -/
  late : r.pumpingInflate = true → r.rxActive = true → r.rxCompressed = true →
    k.any Stmt.isLoop = true ∨ Spare r

/-- Where the receiver stands: not streamed; discarding; between two messages; in one;
    waiting for the body of one; or without any more input. -/
inductive Phase (r : Reading) (k : List Stmt) : Prop where
  | whole (hmode : r.streamed = false) (hbody : r.body = none) (hheld : r.held = false)
  | dropping (hmode : r.streamed = true) (hdiscard : r.discard = true)
      (hheld : r.held = true → k.any Stmt.isRelease = true)
      (hactive : r.rxActive = true →
        (∃ b, r.body = some b ∧ b.messageDone = false) ∨ k.any Stmt.isAbandon = true)
  | between (hmode : r.streamed = true) (hdiscard : r.discard = false)
      (hmessage : r.inMessage = false) (hheld : r.held = false) (hbody : r.body = none)
      (hactive : r.rxActive = false) (hafter : r.discardAfterMessage = false)
      (hshut : r.readShut = false) (habandon : k.any Stmt.isAbandon = false)
  | receiving (hmode : r.streamed = true) (hdiscard : r.discard = false)
      (hmessage : r.inMessage = true) (hheld : r.held = false)
      (hactive : r.rxActive = true) (hpending : r.rxEndPending = false)
      (hbody : ∃ b, r.body = some b ∧ b.messageDone = false)
      (hshut : r.readShut = true → r.discardAfterMessage = true)
      (habandon : k.any Stmt.isAbandon = false)
  | waiting (hmode : r.streamed = true) (hdiscard : r.discard = false)
      (hmessage : r.inMessage = false) (hheld : r.held = true)
      (hafter : r.discardAfterMessage = false) (hshut : r.readShut = false)
      (hmid : k.any Stmt.isMidFeed = false)
      (hturn : k.any Stmt.isFeedTurn = true → r.stopped = true) (b : Body)
      (hbody : r.body = some b)
      (hend : b.messageDone = true
        ∨ (r.rxActive = true ∧ r.rxCompressed = true ∧ r.rxEndPending = true))
      (hactive : r.rxActive = true → b.messageDone = false ∨ k.any Stmt.isAbandon = true)
      (habandon : k.any Stmt.isAbandon = true → b.reads = [] ∧ Body.finished b = false
        ∧ b.messageDone = true)
  | drained (hmode : r.streamed = true) (hdiscard : r.discard = false) (hover : r.inputOver = true)
      (hpending : r.pendingIn = []) (hheld : r.held = false)
      (hfeeder : k.any Stmt.isFeeder = false)
      (hactive : r.rxActive = true →
        (∃ b, r.body = some b ∧ b.messageDone = false) ∨ k.any Stmt.isAbandon = true)

/-- What holds between any two pieces while input is open. -/
structure PauseCore (r : Reading) (k : List Stmt) : Prop where
  notFailed : r.failed = false
  queue : QueueSound r
  stack : StackSound r k
  body : ∀ b, r.body = some b → BodySound b
  inflater : InflaterSound r

/-- What holds where the port may call back while input is open. -/
structure PauseOk (r : Reading) (k : List Stmt) : Prop extends PauseCore r k where
  resumed : r.paused = true → r.high = true ∨ k.any Stmt.isResume = true
  settled : ∀ b, r.body = some b → BodySettled b k
  due : r.inflateDue = true → k.any Stmt.isLoop = true ∨ Spare r
  phase : Phase r k

/-- `PauseOk` now, or after the pieces that run before the port can call back; nothing is
    left to show once input is done, the transport is gone or the connection fails. -/
inductive PauseInv : State → List Stmt → Prop where
  | past {s : State} {k : List Stmt} (h : s.rx.inputDone = true ∨ s.tr.gone = true) :
      PauseInv s k
  | failing {s : State} {k : List Stmt} {code : Nat} {text : String}
      (h : s.cl.failed = true → s.rx.inputDone = true) :
      PauseInv s (.failConnection code text :: k)
  | settled {s : State} {k : List Stmt} (h : PauseOk s.reading k) : PauseInv s k
  | next {s : State} {p : Stmt} {k : List Stmt} (hp : p ≠ .inPort)
      (h : ∀ c, PauseInv (s.exec c p).1 ((s.exec c p).2 ++ k)) : PauseInv s (p :: k)

/-- `PauseInv` after a piece or an entry point, above `k`. -/
def PauseAfter (e : Exec) (k : List Stmt) : Prop := PauseInv e.1 (e.2 ++ k)

end WsCore

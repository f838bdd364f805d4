import EcoCompiler.Utf8Spec

/-! # The WebSocket frame codec

    `WsFrame.cpp`: the strict UTF-8 validator, the serializer and `WsDecoder`.
    The decoder's members are one record; the loop of `feed` is cut where the
    source cuts it, into the header, the start of a frame, one chunk of payload
    and the end of a frame.  The sink is a function of the callbacks made so far,
    which answers whether the last of them called `stop`. -/

namespace WsFrame

/-! ## Constants -/

def kOpContinuation : Nat := 0x0
def kOpText : Nat := 0x1
def kOpBinary : Nat := 0x2
def kOpClose : Nat := 0x8
def kOpPing : Nat := 0x9
def kOpPong : Nat := 0xA

def kMaxControlPayload : Nat := 125

def kCloseProtocolError : Nat := 1002
def kCloseInvalidData : Nat := 1007
def kCloseMessageTooBig : Nat := 1009

/-- Not a code of a Close: the exception of `message_.reserve` has left `feed`. -/
def kThrown : Nat := 0x10000

/-! ## UTF-8 -/

/-- `Utf8Validator`: the continuation bytes still expected, the range of the next
    one, and whether an invalid byte was seen. -/
structure Utf8Validator where
  need : Nat := 0
  lo : Nat := 0x80
  hi : Nat := 0xBF
  failed : Bool := false
  deriving DecidableEq, Inhabited

/-- One turn of the loop of `Utf8Validator::feed`. -/
def Utf8Validator.step (v : Utf8Validator) (b : UInt8) : Utf8Validator :=
  if v.need = 0 then
    if b < 0x80 then v
    else if 0xC2 ≤ b ∧ b ≤ 0xDF then { v with need := 1, lo := 0x80, hi := 0xBF }
    else if b = 0xE0 then { v with need := 2, lo := 0xA0, hi := 0xBF }
    else if (0xE1 ≤ b ∧ b ≤ 0xEC) ∨ b = 0xEE ∨ b = 0xEF then
      { v with need := 2, lo := 0x80, hi := 0xBF }
    else if b = 0xED then { v with need := 2, lo := 0x80, hi := 0x9F }
    else if b = 0xF0 then { v with need := 3, lo := 0x90, hi := 0xBF }
    else if 0xF1 ≤ b ∧ b ≤ 0xF3 then { v with need := 3, lo := 0x80, hi := 0xBF }
    else if b = 0xF4 then { v with need := 3, lo := 0x80, hi := 0x8F }
    else { v with failed := true }
  else if b.toNat < v.lo ∨ v.hi < b.toNat then { v with failed := true }
  else { v with need := v.need - 1, lo := 0x80, hi := 0xBF }

/-- `Utf8Validator::feed`; its result is that the validator has not failed. -/
def Utf8Validator.feed (v : Utf8Validator) : List UInt8 → Utf8Validator
  | [] => v
  | b :: p => if v.failed then v else (v.step b).feed p

/-- `Utf8Validator::complete`. -/
def Utf8Validator.complete (v : Utf8Validator) : Bool := v.need == 0 && !v.failed

/-! ## Serializer -/

/-- The four bytes of a mask key. -/
abbrev Mask := Fin 4 → UInt8

/-- `applyMask`. -/
def applyMask (data : List UInt8) (mask : Mask) (offset : Nat) : List UInt8 :=
  match data with
  | [] => []
  | b :: rest =>
      (b ^^^ mask ⟨offset % 4, Nat.mod_lt _ (Nat.succ_pos 3)⟩)
        :: applyMask rest mask (offset + 1)

/-- The bytes of a mask key, in order. -/
def maskBytes (mask : Mask) : List UInt8 := [mask 0, mask 1, mask 2, mask 3]

/-- `frameHeader`; `mask` is null for an unmasked frame. -/
def frameHeader (fin : Bool) (opcode : Nat) (rsv1 : Bool) (payloadLen : Nat)
    (mask : Option Mask) : List UInt8 :=
  let b0 := UInt8.ofNat
    ((if fin then 0x80 else 0) ||| (if rsv1 then 0x40 else 0) ||| (opcode &&& 0x0F))
  let maskBit : Nat := if mask.isSome then 0x80 else 0
  let lengthBytes :=
    if payloadLen < 126 then [UInt8.ofNat (maskBit ||| payloadLen)]
    else if payloadLen ≤ 0xFFFF then
      [UInt8.ofNat (maskBit ||| 126), UInt8.ofNat ((payloadLen >>> 8) &&& 0xFF),
        UInt8.ofNat (payloadLen &&& 0xFF)]
    else
      UInt8.ofNat (maskBit ||| 127) ::
        [7, 6, 5, 4, 3, 2, 1, 0].map
          (fun i => UInt8.ofNat ((payloadLen >>> (8 * i)) &&& 0xFF))
  b0 :: lengthBytes ++ (mask.map maskBytes).getD []

/-- `encodeFrame`, the overload with `rsv1`. -/
def encodeFrameRsv1 (fin : Bool) (opcode : Nat) (rsv1 : Bool) (payload : List UInt8)
    (mask : Option Mask) : List UInt8 :=
  frameHeader fin opcode rsv1 payload.length mask
    ++ match mask with
      | some m => applyMask payload m 0
      | none => payload

/-- `encodeFrame`. -/
def encodeFrame (fin : Bool) (opcode : Nat) (payload : List UInt8)
    (mask : Option Mask) : List UInt8 :=
  encodeFrameRsv1 fin opcode false payload mask

/-! ## Decoder -/

/-- How a `WsDecoder` is set up before the first `feed`, and the sizes for which
    `std::string::reserve` finds memory. -/
structure Config where
  expectMasked : Bool
  maxMessage : UInt64
  raw : Bool
  allowRsv1 : Bool
  discard : Bool
  reserve : Nat → Bool

/-- A callback of `WsDecoder::Sink`. -/
inductive Event where
  | onMessage (opcode : Nat) (payload : List UInt8)
  | onControl (opcode : Nat) (payload : List UInt8)
  | onDataStart (opcode : Nat) (compressed : Bool)
  | onDataChunk (data : List UInt8)
  | onDataEnd
  deriving DecidableEq

/-- The members of `WsDecoder` that a `feed` changes; `hdr` holds the `hdrHave_`
    bytes of `hdr_`. -/
structure WsDecoder where
  hdr : List UInt8 := []
  inPayload : Bool := false
  fin : Bool := false
  opcode : Nat := 0
  masked : Bool := false
  mask : Mask := fun _ => 0
  remaining : Nat := 0
  maskOffset : Nat := 0
  frameIsControl : Bool := false
  control : List UInt8 := []
  inMessage : Bool := false
  msgCompressed : Bool := false
  msgOpcode : Nat := 0
  msgSize : Nat := 0
  message : List UInt8 := []
  utf8 : Utf8Validator := {}
  failCode : Nat := 0
  failText : String := ""

/-- `WsDecoder::fail`. -/
def WsDecoder.fail (d : WsDecoder) (code : Nat) (text : String) : WsDecoder :=
  if d.failCode = 0 then { d with failCode := code, failText := text } else d

/-- The number of bytes the header needs, from the bytes of it that are in. -/
def headerNeed (hdr : List UInt8) : Nat :=
  match hdr with
  | _ :: b1 :: _ =>
      let len7 := b1.toNat &&& 0x7F
      2 + (if len7 = 126 then 2 else if len7 = 127 then 8 else 0)
        + (if b1.toNat &&& 0x80 ≠ 0 then 4 else 0)
  | _ => 2

/-- The bytes of `hdr_` from `at` on, read as a big-endian number. -/
def bigEndian (bytes : List UInt8) : Nat :=
  bytes.foldl (fun len b => (len <<< 8) ||| b.toNat) 0

/-- The first checks of `startFrame`, on the header alone: the text of the failure. -/
def headerError (cfg : Config) (b0 : Nat) (len7 len : Nat) (masked : Bool) :
    Option String :=
  let opcode := b0 &&& 0x0F
  let rsv1 := b0 &&& 0x40 ≠ 0
  let known := opcode = kOpContinuation ∨ opcode = kOpText ∨ opcode = kOpBinary ∨
    opcode = kOpClose ∨ opcode = kOpPing ∨ opcode = kOpPong
  if len7 = 127 ∧ len &&& (1 <<< 63) ≠ 0 then
    some "a 64-bit length with the most significant bit set"
  else if b0 &&& 0x20 ≠ 0 ∨ b0 &&& 0x10 ≠ 0 then some "RSV2 or RSV3 is set"
  else if rsv1 ∧ !cfg.allowRsv1 then some "RSV1 is set without a negotiated extension"
  else if ¬ known then some "a reserved opcode"
  else if masked ≠ cfg.expectMasked then
    some (if cfg.expectMasked then "an unmasked client frame" else "a masked server frame")
  else if rsv1 ∧ 0x8 ≤ opcode then some "RSV1 is set on a control frame"
  else if rsv1 ∧ opcode = kOpContinuation then
    some "RSV1 is set on a continuation frame"
  else none

/-- The checks of `startFrame` that also look at the message in progress. -/
def messageError (inMessage : Bool) (opcode len : Nat) (fin : Bool) : Option String :=
  if 0x8 ≤ opcode then
    if !fin then some "a fragmented control frame"
    else if kMaxControlPayload < len then some "a control frame longer than 125 bytes"
    else none
  else if opcode = kOpContinuation then
    if !inMessage then some "a continuation frame without a message in progress" else none
  else if inMessage then some "a new data frame inside a fragmented message"
  else none

/-- The message members after a data frame's header passed `messageError`. -/
def openMessage (d : WsDecoder) (rsv1 : Bool) : WsDecoder :=
  if d.opcode = kOpContinuation then d
  else
    { d with inMessage := true, msgOpcode := d.opcode, msgCompressed := rsv1, msgSize := 0,
             message := [], utf8 := {} }

/-- Whether the message size limit is checked for the message in progress. -/
def checkSize (cfg : Config) (compressed : Bool) : Bool :=
  !cfg.discard && !(cfg.raw && compressed)

/-- The end of `startFrame` for a data frame of an allowed size, whose message gets room in
    Whole mode. -/
def startPayload (cfg : Config) (d : WsDecoder) (len : Nat) : WsDecoder :=
  let size := (d.msgSize + len) % 2 ^ 64
  if (!cfg.discard && !cfg.raw) ∧ 0 < len ∧ !cfg.reserve size then
    { d with msgSize := size }.fail kThrown "message_.reserve"
  else { d with msgSize := size, remaining := len, maskOffset := 0 }

/-- `WsDecoder::startFrame`, on the complete header in `hdr`, which is consumed. -/
def startFrame (cfg : Config) (d : WsDecoder) : WsDecoder :=
  let b0 := (d.hdr.getD 0 0).toNat
  let b1 := (d.hdr.getD 1 0).toNat
  let len7 := b1 &&& 0x7F
  let ext := if len7 = 126 then 2 else if len7 = 127 then 8 else 0
  let len := if len7 = 126 ∨ len7 = 127 then bigEndian ((d.hdr.drop 2).take ext) else len7
  let masked := decide (b1 &&& 0x80 ≠ 0)
  let key := d.hdr.drop (2 + ext)
  let opcode := b0 &&& 0x0F
  let fin := decide (b0 &&& 0x80 ≠ 0)
  let rsv1 := decide (b0 &&& 0x40 ≠ 0)
  let d := { d with
    hdr := [], fin := fin, opcode := opcode, masked := masked,
    mask := if masked then fun i => key.getD i 0 else d.mask }
  match headerError cfg b0 len7 len masked with
  | some text => d.fail kCloseProtocolError text
  | none =>
      let d := { d with frameIsControl := decide (0x8 ≤ opcode) }
      match messageError d.inMessage opcode len fin with
      | some text => d.fail kCloseProtocolError text
      | none =>
          if 0x8 ≤ opcode then { d with control := [], remaining := len, maskOffset := 0 }
          else
            let d := openMessage d rsv1
            if checkSize cfg d.msgCompressed
                ∧ cfg.maxMessage.toNat - min d.msgSize cfg.maxMessage.toNat < len then
              d.fail kCloseMessageTooBig "the message is larger than maxMessageSize"
            else startPayload cfg d len

/-- The callback of raw mode for a frame that has just started. -/
def startEvents (cfg : Config) (wasInMessage : Bool) (d : WsDecoder) : List Event :=
  if cfg.raw && !cfg.discard && !d.frameIsControl && !wasInMessage then
    [.onDataStart d.msgOpcode d.msgCompressed]
  else []

/-- `remaining_ -= take; maskOffset_ += take`. -/
def WsDecoder.advance (d : WsDecoder) (take : Nat) : WsDecoder :=
  { d with remaining := d.remaining - take, maskOffset := (d.maskOffset + take) % 2 ^ 64 }

/-- Whether the payload of the current frame is kept in `message_`: a data frame in
    Whole mode. -/
def keepsMessage (cfg : Config) (d : WsDecoder) : Bool :=
  !d.frameIsControl && !cfg.discard && !cfg.raw

/-- Whether the payload of the current frame is checked to be UTF-8. -/
def checksText (cfg : Config) (d : WsDecoder) : Bool :=
  keepsMessage cfg d && d.msgOpcode == kOpText

/-- Appends unmasked payload where its frame keeps it, and validates text. -/
def WsDecoder.store (cfg : Config) (d : WsDecoder) (bytes : List UInt8) : WsDecoder :=
  { d with
    control := if d.frameIsControl then d.control ++ bytes else d.control
    message := if keepsMessage cfg d then d.message ++ bytes else d.message
    utf8 := if checksText cfg d then d.utf8.feed bytes else d.utf8 }

/-- The unmasked bytes of a chunk. -/
def unmasked (d : WsDecoder) (chunk : List UInt8) : List UInt8 :=
  if d.masked then applyMask chunk d.mask d.maskOffset else chunk

/-- One chunk of payload, of at most `remaining` bytes. -/
def takeChunk (cfg : Config) (d : WsDecoder) (chunk : List UInt8) :
    WsDecoder × List Event :=
  let bytes := unmasked d chunk
  let d' := d.store cfg bytes
  if checksText cfg d && d'.utf8.failed then
    (d'.fail kCloseInvalidData "invalid UTF-8 in a text message", [])
  else
    (d'.advance chunk.length,
      if !d.frameIsControl && !cfg.discard && cfg.raw then [.onDataChunk bytes] else [])

/-- The end of a frame whose payload is all in. -/
def completeFrame (cfg : Config) (d : WsDecoder) : WsDecoder × List Event :=
  let d := { d with inPayload := false }
  if d.frameIsControl then ({ d with control := [] }, [.onControl d.opcode d.control])
  else if !d.fin then (d, [])
  else
    let op := d.msgOpcode
    let d := { d with inMessage := false, msgSize := 0 }
    if cfg.discard then (d, [])
    else if cfg.raw then (d, [.onDataEnd])
    else if op = kOpText ∧ !d.utf8.complete then
      (d.fail kCloseInvalidData "invalid UTF-8 in a text message", [])
    else ({ d with message := [] }, [.onMessage op d.message])

/-- What the loop of `feed` holds between two turns: the decoder, the input not
    yet taken, the callbacks made so far in the decoder's life, and `stopped_`. -/
structure FeedState where
  d : WsDecoder
  data : List UInt8
  log : List Event
  stopped : Bool

/-- The sink: given every callback made so far, whether the last called `stop`. -/
abbrev Sink := List Event → Bool

/-- Makes callbacks, each of which may call `stop`. -/
def notify (sink : Sink) (s : FeedState) : List Event → FeedState
  | [] => s
  | e :: es =>
      notify sink
        { s with log := s.log ++ [e], stopped := s.stopped || sink (s.log ++ [e]) } es

/-- The end of a turn that completes a frame. -/
def completeTurn (cfg : Config) (sink : Sink) (s : FeedState) : Bool × FeedState :=
  let r := completeFrame cfg s.d
  (true, notify sink { s with d := r.1 } r.2)

/-- The part of a turn that takes payload; the first component is false for
    `break`. -/
def payloadTurn (cfg : Config) (sink : Sink) (s : FeedState) : Bool × FeedState :=
  if 0 < s.d.remaining then
    if s.data = [] then (false, s)
    else
      let take := min s.d.remaining s.data.length
      let r := takeChunk cfg s.d (s.data.take take)
      let s := { s with d := r.1, data := s.data.drop take }
      if r.1.failCode ≠ 0 then (false, s)
      else
        let s := notify sink s r.2
        if 0 < s.d.remaining then (false, s) else completeTurn cfg sink s
  else completeTurn cfg sink s

/-- One turn of the loop of `feed`. -/
def feedTurn (cfg : Config) (sink : Sink) (s : FeedState) : Bool × FeedState :=
  if s.d.inPayload then payloadTurn cfg sink s
  else
    let need := headerNeed s.d.hdr
    if s.d.hdr.length < need then
      if s.data = [] then (false, s)
      else
        let take := min (need - s.d.hdr.length) s.data.length
        (true, { s with d := { s.d with hdr := s.d.hdr ++ s.data.take take },
                        data := s.data.drop take })
    else
      let wasInMessage := s.d.inMessage
      let d := startFrame cfg s.d
      if d.failCode ≠ 0 then (false, { s with d := d })
      else
        let d := { d with inPayload := true }
        payloadTurn cfg sink (notify sink { s with d := d } (startEvents cfg wasInMessage d))

/-- The loop of `feed`, `while (!failed() && !stopped_)`. -/
def feedLoop (cfg : Config) (sink : Sink) : Nat → FeedState → FeedState
  | 0, s => s
  | fuel + 1, s =>
      if s.d.failCode ≠ 0 ∨ s.stopped then s
      else
        match feedTurn cfg sink s with
        | (true, s') => feedLoop cfg sink fuel s'
        | (false, s') => s'

/-- `WsDecoder::feed`: the decoder after, the input not consumed, and the
    callbacks made so far.  Every turn but one takes input or ends a header, so
    the loop makes at most `2 * n + 2` turns (`feed_settles`). -/
def feed (cfg : Config) (sink : Sink) (d : WsDecoder) (log : List Event)
    (data : List UInt8) : FeedState :=
  feedLoop cfg sink (2 * data.length + 2)
    { d := d, data := data, log := log, stopped := false }

end WsFrame

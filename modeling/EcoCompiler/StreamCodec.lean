import Mathlib

/-! # The text codecs of streams

    The text encoder and the text decoder of `StreamCodec.cpp`: the state they carry from
    one chunk to the next, a chunk, and the flush.  The zlib kinds of codec share no state
    with them and are left out.

    * `encodeUnits`, `decodeBytes` — one chunk;
    * `codecTransform`, `codecFlush` — a chunk and the final step of either kind;
    * `codecRun` — every chunk of a stream, then the flush. -/

namespace StreamCodec

/-- What a text codec does. -/
inductive CodecKind where
  | textEncode
  | textDecode
  deriving DecidableEq

/-- `CodecState`, without zlib's fields. -/
structure CodecState where
  kind : CodecKind
  /-- A high surrogate carried from the previous chunk (0: none). -/
  pendingHigh : UInt16 := 0
  /-- The code point built so far, the continuation bytes it has and needs, and the bounds
      of the next one. -/
  cp : UInt32 := 0
  seen : ℕ := 0
  needed : ℕ := 0
  lower : UInt8 := 0x80
  upper : UInt8 := 0xBF
  bomChecked : Bool := false

/-- `newTextEncoder`. -/
def newTextEncoder : CodecState := { kind := .textEncode }

/-- `newTextDecoder`. -/
def newTextDecoder : CodecState := { kind := .textDecode }

/-- `codecTakesString`. -/
def codecTakesString (c : CodecState) : Bool := c.kind = .textEncode

/-- `codecMakesString`. -/
def codecMakesString (c : CodecState) : Bool := c.kind = .textDecode

/-- A continuation byte of `appendUtf8`. -/
def contByte (x : UInt32) : UInt8 := ((0x80 : UInt32) ||| (x &&& (0x3F : UInt32))).toUInt8

/-- The bytes `appendUtf8` appends. -/
def appendUtf8 (cp : UInt32) : List UInt8 :=
  if cp < 0x80 then [cp.toUInt8]
  else if cp < 0x800 then [((0xC0 : UInt32) ||| (cp >>> 6)).toUInt8, contByte cp]
  else if cp < 0x10000 then
    [((0xE0 : UInt32) ||| (cp >>> 12)).toUInt8, contByte (cp >>> 6), contByte cp]
  else
    [((0xF0 : UInt32) ||| (cp >>> 18)).toUInt8, contByte (cp >>> 12), contByte (cp >>> 6),
      contByte cp]

/-- U+FFFD REPLACEMENT CHARACTER. -/
def kReplacement : UInt32 := 0xFFFD

/-! ## The encoder -/

/-- The body of the loop of `encodeUnits` when no high surrogate is pending. -/
def encodeFresh (c : CodecState) (u : UInt16) : CodecState × List UInt8 :=
  if 0xD800 ≤ u ∧ u ≤ 0xDBFF then ({ c with pendingHigh := u }, [])
  else if 0xDC00 ≤ u ∧ u ≤ 0xDFFF then (c, appendUtf8 kReplacement)
  else (c, appendUtf8 u.toUInt32)

/-- The body of the loop of `encodeUnits`: the state after a unit, and the bytes appended. -/
def encodeUnit (c : CodecState) (u : UInt16) : CodecState × List UInt8 :=
  if c.pendingHigh ≠ 0 then
    let hi := c.pendingHigh
    let c := { c with pendingHigh := 0 }
    if 0xDC00 ≤ u ∧ u ≤ 0xDFFF then
      (c, appendUtf8 (0x10000 + ((hi.toUInt32 - 0xD800) <<< (10 : UInt32)) + (u.toUInt32 - 0xDC00)))
    else
      let r := encodeFresh c u
      (r.1, appendUtf8 kReplacement ++ r.2)
  else encodeFresh c u

/-- `encodeUnits`. -/
def encodeUnits (c : CodecState) : List UInt16 → CodecState × List UInt8
  | [] => (c, [])
  | u :: units =>
      let r := encodeUnit c u
      let r' := encodeUnits r.1 units
      (r'.1, r.2 ++ r'.2)

/-! ## The decoder -/

/-- `emitDecoded`. -/
def emitDecoded (c : CodecState) (cp : UInt32) : CodecState × List UInt8 :=
  if c.bomChecked = false then
    if cp = 0xFEFF then ({ c with bomChecked := true }, [])
    else ({ c with bomChecked := true }, appendUtf8 cp)
  else (c, appendUtf8 cp)

/-- The state between two code points, as `decodeBytes` and `codecFlush` reset it. -/
def resetDecoder (c : CodecState) : CodecState :=
  { c with cp := 0, needed := 0, seen := 0, lower := 0x80, upper := 0xBF }

/-- The body of the loop of `decodeBytes` at the first byte of a sequence. -/
def decodeLead (c : CodecState) (b : UInt8) : CodecState × List UInt8 :=
  if b ≤ 0x7F then emitDecoded c b.toUInt32
  else if 0xC2 ≤ b ∧ b ≤ 0xDF then
    ({ c with needed := 1, cp := (b &&& 0x1F).toUInt32 }, [])
  else if 0xE0 ≤ b ∧ b ≤ 0xEF then
    ({ c with
        lower := if b = 0xE0 then 0xA0 else c.lower
        upper := if b = 0xED then 0x9F else c.upper
        needed := 2
        cp := (b &&& 0x0F).toUInt32 }, [])
  else if 0xF0 ≤ b ∧ b ≤ 0xF4 then
    ({ c with
        lower := if b = 0xF0 then 0x90 else c.lower
        upper := if b = 0xF4 then 0x8F else c.upper
        needed := 3
        cp := (b &&& 0x07).toUInt32 }, [])
  else emitDecoded c kReplacement

/-- The body of the loop of `decodeBytes` at a continuation byte within its bounds. -/
def decodeNext (c : CodecState) (b : UInt8) : CodecState × List UInt8 :=
  let cp := (c.cp <<< (6 : UInt32)) ||| (b &&& 0x3F).toUInt32
  let c := { c with lower := 0x80, upper := 0xBF, cp := cp, seen := c.seen + 1 }
  if c.seen = c.needed then emitDecoded { c with cp := 0, needed := 0, seen := 0 } cp
  else (c, [])

@[simp] theorem emitDecoded_needed (c : CodecState) (cp : UInt32) :
    (emitDecoded c cp).1.needed = c.needed := by
  rw [emitDecoded]
  split_ifs <;> rfl

/-- `decodeBytes`. A byte that does not continue the sequence is read again after the
    replacement. -/
def decodeBytes (c : CodecState) : List UInt8 → CodecState × List UInt8
  | [] => (c, [])
  | b :: rest =>
      if c.needed = 0 then
        let r := decodeLead c b
        let r' := decodeBytes r.1 rest
        (r'.1, r.2 ++ r'.2)
      else if b < c.lower ∨ c.upper < b then
        let r := emitDecoded (resetDecoder c) kReplacement
        let r' := decodeBytes r.1 (b :: rest)
        (r'.1, r.2 ++ r'.2)
      else
        let r := decodeNext c b
        let r' := decodeBytes r.1 rest
        (r'.1, r.2 ++ r'.2)
termination_by bs => (bs.length, c.needed)
decreasing_by
  · exact Prod.Lex.left _ _ (Nat.lt_succ_self _)
  · refine Prod.Lex.right _ ?_
    rw [emitDecoded_needed]
    exact Nat.pos_of_ne_zero (by assumption)
  · exact Prod.Lex.left _ _ (Nat.lt_succ_self _)

/-! ## Chunks and the flush -/

/-- One input chunk: a text encoder reads the units, a text decoder the bytes. -/
structure Chunk where
  bytes : List UInt8
  units : List UInt16

/-- An output chunk, unless it is empty. -/
def pushChunk (out : List (List UInt8)) (s : List UInt8) : List (List UInt8) :=
  if s ≠ [] then out ++ [s] else out

/-- `codecTransform`: the state, the outputs, and the reason for a failure. -/
def codecTransform (c : CodecState) (ch : Chunk) (out : List (List UInt8)) :
    CodecState × List (List UInt8) × String :=
  match c.kind with
  | .textEncode =>
      let r := encodeUnits c ch.units
      (r.1, pushChunk out r.2, "")
  | .textDecode =>
      let r := decodeBytes c ch.bytes
      (r.1, pushChunk out r.2, "")

/-- `codecFlush`. -/
def codecFlush (c : CodecState) (out : List (List UInt8)) :
    CodecState × List (List UInt8) × String :=
  match c.kind with
  | .textEncode =>
      if c.pendingHigh ≠ 0 then
        ({ c with pendingHigh := 0 }, out ++ [appendUtf8 kReplacement], "")
      else (c, out, "")
  | .textDecode =>
      if c.needed ≠ 0 then
        let r := emitDecoded (resetDecoder c) kReplacement
        (r.1, pushChunk out r.2, "")
      else (c, out, "")

/-- The outputs of a codec for the chunks of a stream in order, and then for the flush. -/
def codecRun (c : CodecState) (out : List (List UInt8)) : List Chunk → List (List UInt8)
  | [] => (codecFlush c out).2.1
  | ch :: chunks =>
      let r := codecTransform c ch out
      codecRun r.1 r.2.1 chunks

end StreamCodec

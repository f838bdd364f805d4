import EcoCompiler.Utf8Spec

/-! # The UTF-8 paths of the runtime

    The hand-written sizing, writing, validating and decoding loops of
    `BytesExports.cpp`, `ElmBytesRuntime.cpp` and `Utf8.hpp`, over the list of the
    units or bytes they walk.  `elm_utf8_decode` keeps its `u32` index, which can
    wrap, and reads its bytes through an address, so that what lies past the end
    of the range is not known. -/

namespace Utf8Kernel

/-- The two kinds of String object: the UTF-16 forms (leaf, slice, rope), which
    `toStdU16String` all reads as units, and the byte forms (view, leaf). -/
inductive StringForm where
  | utf16 (units : List UInt16)
  | utf8 (bytes : List UInt8)
  deriving DecidableEq

/-- What the runtime keeps of every String: its length fits `header.size`, a
    `u32`, and a UTF-8 form holds ASCII only. -/
def StringForm.Ok : StringForm → Prop
  | .utf16 units => units.length < 2 ^ 32
  | .utf8 bytes => bytes.length < 2 ^ 32 ∧ ∀ b ∈ bytes, b.toNat < 0x80

/-- A String value. -/
structure ElmString where
  form : StringForm
  ok : form.Ok

/-- The UTF-16 units a form stands for; a byte form is widened. -/
def StringForm.toStdU16String : StringForm → List UInt16
  | .utf16 units => units
  | .utf8 bytes => bytes.map UInt8.toUInt16

/-- A Bytes value: its length fits `header.size`, a `u32`. -/
structure ByteBuffer where
  data : List UInt8
  size_lt : data.length < 2 ^ 32

/-! ## Sizing -/

/-- The loop of `getStringWidth`. -/
def getStringWidthLoop (utf8_bytes : Nat) : List UInt16 → Nat
  | [] => utf8_bytes
  | [codeUnit] =>
      if 0xD800 ≤ codeUnit ∧ codeUnit ≤ 0xDBFF then utf8_bytes + 3
      else if 0xDC00 ≤ codeUnit ∧ codeUnit ≤ 0xDFFF then utf8_bytes + 3
      else if codeUnit < 0x80 then utf8_bytes + 1
      else if codeUnit < 0x800 then utf8_bytes + 2
      else utf8_bytes + 3
  | codeUnit :: lo :: rest =>
      if 0xD800 ≤ codeUnit ∧ codeUnit ≤ 0xDBFF then
        if 0xDC00 ≤ lo ∧ lo ≤ 0xDFFF then getStringWidthLoop (utf8_bytes + 4) rest
        else getStringWidthLoop (utf8_bytes + 3) (lo :: rest)
      else if 0xDC00 ≤ codeUnit ∧ codeUnit ≤ 0xDFFF then
        getStringWidthLoop (utf8_bytes + 3) (lo :: rest)
      else if codeUnit < 0x80 then getStringWidthLoop (utf8_bytes + 1) (lo :: rest)
      else if codeUnit < 0x800 then getStringWidthLoop (utf8_bytes + 2) (lo :: rest)
      else getStringWidthLoop (utf8_bytes + 3) (lo :: rest)

/-- `Elm_Kernel_Bytes_getStringWidth`; the result is an `int64_t`. -/
def getStringWidth (str : StringForm) : Nat :=
  match str with
  | .utf8 bytes => bytes.length
  | .utf16 units => getStringWidthLoop 0 units

/-- The code point of a surrogate pair, as every encoder computes it. -/
def pairCodepoint (c c2 : UInt16) : Nat :=
  0x10000 + ((c.toNat - 0xD800) <<< 10) + (c2.toNat - 0xDC00)

/-- The `u32` width that `elm_utf8_width` adds for one code point. -/
def widthStep (codepoint : Nat) : UInt32 :=
  if codepoint < 0x80 then 1
  else if codepoint < 0x800 then 2
  else if codepoint < 0x10000 then 3
  else 4

/-- The loop of `elm_utf8_width`: `utf8_len` is a `u32`. -/
def utf8WidthLoop (utf8_len : UInt32) : List UInt16 → UInt32
  | [] => utf8_len
  | [c] => utf8_len + widthStep c.toNat
  | c :: c2 :: rest =>
      if (0xD800 ≤ c ∧ c ≤ 0xDBFF) ∧ (0xDC00 ≤ c2 ∧ c2 ≤ 0xDFFF) then
        utf8WidthLoop (utf8_len + widthStep (pairCodepoint c c2)) rest
      else utf8WidthLoop (utf8_len + widthStep c.toNat) (c2 :: rest)

/-- `elm_utf8_width`. -/
def elm_utf8_width (str : StringForm) : UInt32 :=
  match str with
  | .utf8 bytes => UInt32.ofNat bytes.length
  | .utf16 units => utf8WidthLoop 0 units

/-! ## Writing -/

/-- The bytes `elm_utf8_copy` writes for one code point. -/
def copyStep (codepoint : Nat) : List UInt8 :=
  if codepoint < 0x80 then [UInt8.ofNat codepoint]
  else if codepoint < 0x800 then
    [UInt8.ofNat (0xC0 ||| (codepoint >>> 6)),
      UInt8.ofNat (0x80 ||| (codepoint &&& 0x3F))]
  else if codepoint < 0x10000 then
    [UInt8.ofNat (0xE0 ||| (codepoint >>> 12)),
      UInt8.ofNat (0x80 ||| ((codepoint >>> 6) &&& 0x3F)),
      UInt8.ofNat (0x80 ||| (codepoint &&& 0x3F))]
  else
    [UInt8.ofNat (0xF0 ||| (codepoint >>> 18)),
      UInt8.ofNat (0x80 ||| ((codepoint >>> 12) &&& 0x3F)),
      UInt8.ofNat (0x80 ||| ((codepoint >>> 6) &&& 0x3F)),
      UInt8.ofNat (0x80 ||| (codepoint &&& 0x3F))]

/-- The loop of `elm_utf8_copy`: the bytes written at `dst`. -/
def utf8CopyLoop : List UInt16 → List UInt8
  | [] => []
  | [c] => copyStep c.toNat
  | c :: c2 :: rest =>
      if (0xD800 ≤ c ∧ c ≤ 0xDBFF) ∧ (0xDC00 ≤ c2 ∧ c2 ≤ 0xDFFF) then
        copyStep (pairCodepoint c c2) ++ utf8CopyLoop rest
      else copyStep c.toNat ++ utf8CopyLoop (c2 :: rest)

/-- `elm_utf8_copy`: the bytes written and the `u32` count returned. -/
def elm_utf8_copy (str : StringForm) : List UInt8 × UInt32 :=
  match str with
  | .utf8 bytes => (bytes, UInt32.ofNat bytes.length)
  | .utf16 units =>
      (utf8CopyLoop units, UInt32.ofNat (utf8CopyLoop units).length)

/-- The bytes `writeEncoder` writes for one unit outside a pair. -/
def writeUnit (ch : UInt16) : List UInt8 :=
  if ch < 0x80 then [UInt8.ofNat ch.toNat]
  else if ch < 0x800 then
    [UInt8.ofNat (0xC0 ||| ((ch.toNat >>> 6) &&& 0x1F)),
      UInt8.ofNat (0x80 ||| (ch.toNat &&& 0x3F))]
  else
    [UInt8.ofNat (0xE0 ||| ((ch.toNat >>> 12) &&& 0x0F)),
      UInt8.ofNat (0x80 ||| ((ch.toNat >>> 6) &&& 0x3F)),
      UInt8.ofNat (0x80 ||| (ch.toNat &&& 0x3F))]

/-- The bytes `writeEncoder` writes for a surrogate pair. -/
def writePair (cp : Nat) : List UInt8 :=
  [UInt8.ofNat (0xF0 ||| ((cp >>> 18) &&& 0x07)),
    UInt8.ofNat (0x80 ||| ((cp >>> 12) &&& 0x3F)),
    UInt8.ofNat (0x80 ||| ((cp >>> 6) &&& 0x3F)),
    UInt8.ofNat (0x80 ||| (cp &&& 0x3F))]

/-- The loop of the `ENC_UTF8` case of `writeEncoder`. -/
def writeUtf8Loop : List UInt16 → List UInt8
  | [] => []
  | [ch] => writeUnit ch
  | ch :: lo :: rest =>
      if (0xD800 ≤ ch ∧ ch ≤ 0xDBFF) ∧ (0xDC00 ≤ lo ∧ lo ≤ 0xDFFF) then
        writePair (pairCodepoint ch lo) ++ writeUtf8Loop rest
      else writeUnit ch ++ writeUtf8Loop (lo :: rest)

/-- What `writeEncoder` writes for a String node. -/
def writeUtf8 (str : StringForm) : List UInt8 :=
  match str with
  | .utf8 bytes => bytes
  | .utf16 units => writeUtf8Loop units

/-! ## Validating and decoding -/

/-- The code point of a two-byte sequence. -/
def cp2 (c c2 : UInt8) : Nat := ((c.toNat &&& 0x1F) <<< 6) ||| (c2.toNat &&& 0x3F)

/-- The code point of a three-byte sequence. -/
def cp3 (c c2 c3 : UInt8) : Nat :=
  ((c.toNat &&& 0x0F) <<< 12) ||| ((c2.toNat &&& 0x3F) <<< 6) ||| (c3.toNat &&& 0x3F)

/-- The code point of a four-byte sequence. -/
def cp4 (c c2 c3 c4 : UInt8) : Nat :=
  ((c.toNat &&& 0x07) <<< 18) ||| ((c2.toNat &&& 0x3F) <<< 12)
    ||| ((c3.toNat &&& 0x3F) <<< 6) ||| (c4.toNat &&& 0x3F)

/-- What one `scan` learned about a range of bytes. -/
structure ScanResult where
  valid : Bool
  ascii : Bool
  utf16Units : UInt32
  deriving DecidableEq

/-- The loop of `Utf8::scan`: whether it reached the end, and `units`, a `u32`. -/
def scanLoop (units : UInt32) : List UInt8 → Bool × UInt32
  | [] => (true, units)
  | c :: rest =>
      if c &&& 0x80 = 0 then scanLoop (units + 1) rest
      else if c &&& 0xE0 = 0xC0 then
        match rest with
        | c2 :: rest' =>
            if c2 &&& 0xC0 ≠ 0x80 then (false, units)
            else if cp2 c c2 < 0x80 then (false, units)
            else scanLoop (units + 1) rest'
        | _ => (false, units)
      else if c &&& 0xF0 = 0xE0 then
        match rest with
        | c2 :: c3 :: rest' =>
            if c2 &&& 0xC0 ≠ 0x80 ∨ c3 &&& 0xC0 ≠ 0x80 then (false, units)
            else if cp3 c c2 c3 < 0x800 then (false, units)
            else if 0xD800 ≤ cp3 c c2 c3 ∧ cp3 c c2 c3 ≤ 0xDFFF then (false, units)
            else scanLoop (units + 1) rest'
        | _ => (false, units)
      else if c &&& 0xF8 = 0xF0 then
        match rest with
        | c2 :: c3 :: c4 :: rest' =>
            if c2 &&& 0xC0 ≠ 0x80 ∨ c3 &&& 0xC0 ≠ 0x80 ∨ c4 &&& 0xC0 ≠ 0x80 then
              (false, units)
            else if cp4 c c2 c3 c4 < 0x10000 ∨ 0x10FFFF < cp4 c c2 c3 c4 then
              (false, units)
            else scanLoop (units + 2) rest'
        | _ => (false, units)
      else (false, units)

/-- `Utf8::scan`. -/
def scan (p : List UInt8) : ScanResult :=
  let r := scanLoop 0 p
  { valid := r.1
    ascii := r.1 && (r.2 == UInt32.ofNat p.length)
    utf16Units := r.2 }

/-- The bytes at `src` when the range there holds `bs`: what lies past the range is
    whatever `beyond` says. -/
def readAt (bs : List UInt8) (beyond : Nat → UInt8) (i : Nat) : UInt8 :=
  if h : i < bs.length then bs[i] else beyond i

/-- Pass 1 of `elm_utf8_decode` from index `i`: `some none` is the null word,
    `some (some units)` the number of units of a valid range, `none` an exhausted
    fuel.  The index is a `u32`, so `i + 2` and `i + 3` may wrap. -/
def decodePass1 (src : Nat → UInt8) (len : UInt32) :
    Nat → UInt32 → Nat → Option (Option Nat)
  | 0, _, _ => none
  | fuel + 1, i, units =>
      if i < len then
        let c := src i.toNat
        if c &&& 0x80 = 0 then decodePass1 src len fuel (i + 1) (units + 1)
        else if c &&& 0xE0 = 0xC0 then
          if len ≤ i + 1 then some none
          else
            let c2 := src (i + 1).toNat
            if c2 &&& 0xC0 ≠ 0x80 then some none
            else if cp2 c c2 < 0x80 then some none
            else decodePass1 src len fuel (i + 2) (units + 1)
        else if c &&& 0xF0 = 0xE0 then
          if len ≤ i + 2 then some none
          else
            let c2 := src (i + 1).toNat
            let c3 := src (i + 2).toNat
            if c2 &&& 0xC0 ≠ 0x80 ∨ c3 &&& 0xC0 ≠ 0x80 then some none
            else if cp3 c c2 c3 < 0x800 then some none
            else if 0xD800 ≤ cp3 c c2 c3 ∧ cp3 c c2 c3 ≤ 0xDFFF then some none
            else decodePass1 src len fuel (i + 3) (units + 1)
        else if c &&& 0xF8 = 0xF0 then
          if len ≤ i + 3 then some none
          else
            let c2 := src (i + 1).toNat
            let c3 := src (i + 2).toNat
            let c4 := src (i + 3).toNat
            if c2 &&& 0xC0 ≠ 0x80 ∨ c3 &&& 0xC0 ≠ 0x80 ∨ c4 &&& 0xC0 ≠ 0x80 then
              some none
            else if cp4 c c2 c3 c4 < 0x10000 ∨ 0x10FFFF < cp4 c c2 c3 c4 then some none
            else decodePass1 src len fuel (i + 4) (units + 2)
        else some none
      else some (some units)

/-- The units pass 2 of `elm_utf8_decode` stores for a code point. -/
def storeUnits (cp : Nat) : List UInt16 :=
  if cp ≤ 0xFFFF then [UInt16.ofNat cp]
  else [UInt16.ofNat (0xD800 ||| ((cp - 0x10000) >>> 10)),
    UInt16.ofNat (0xDC00 ||| ((cp - 0x10000) &&& 0x3FF))]

/-- Pass 2 of `elm_utf8_decode` from index `i`, which checks nothing. -/
def decodePass2 (src : Nat → UInt8) (len : UInt32) :
    Nat → UInt32 → Option (List UInt16)
  | 0, _ => none
  | fuel + 1, i =>
      if i < len then
        let c := src i.toNat
        if c &&& 0x80 = 0 then
          (decodePass2 src len fuel (i + 1)).map (storeUnits c.toNat ++ ·)
        else if c &&& 0xE0 = 0xC0 then
          (decodePass2 src len fuel (i + 2)).map
            (storeUnits (cp2 c (src (i + 1).toNat)) ++ ·)
        else if c &&& 0xF0 = 0xE0 then
          (decodePass2 src len fuel (i + 3)).map
            (storeUnits (cp3 c (src (i + 1).toNat) (src (i + 2).toNat)) ++ ·)
        else
          (decodePass2 src len fuel (i + 4)).map
            (storeUnits (cp4 c (src (i + 1).toNat) (src (i + 2).toNat)
              (src (i + 3).toNat)) ++ ·)
      else some []

/-- `elm_utf8_decode` on the `len` bytes at `src`: `some none` is the null word,
    `some (some str)` the new String, `none` a loop that has not ended within
    `fuel` steps. -/
def elm_utf8_decode (src : Nat → UInt8) (len : UInt32) (fuel : Nat) :
    Option (Option StringForm) :=
  if len = 0 then some (some (.utf16 []))
  else
    match decodePass1 src len fuel 0 0 with
    | none => none
    | some none => some none
    | some (some _) =>
        (decodePass2 src len fuel 0).map (fun units => some (.utf16 units))

/-- The units `read_string` stores for a code point. -/
def transcodeUnits (codepoint : Nat) : List UInt16 :=
  if codepoint ≤ 0xFFFF then [UInt16.ofNat codepoint]
  else [UInt16.ofNat (0xD800 + ((codepoint - 0x10000) >>> 10)),
    UInt16.ofNat (0xDC00 + ((codepoint - 0x10000) &&& 0x3FF))]

/-- The transcoding loop of `read_string`, run on a range `scan` accepted; it
    checks nothing, and a read past the range gives `none`. -/
def transcode : List UInt8 → Option (List UInt16)
  | [] => some []
  | byte :: rest =>
      if byte < 0x80 then (transcode rest).map (transcodeUnits byte.toNat ++ ·)
      else if byte < 0xE0 then
        match rest with
        | b2 :: rest' => (transcode rest').map (transcodeUnits (cp2 byte b2) ++ ·)
        | _ => none
      else if byte < 0xF0 then
        match rest with
        | b2 :: b3 :: rest' =>
            (transcode rest').map (transcodeUnits (cp3 byte b2 b3) ++ ·)
        | _ => none
      else
        match rest with
        | b2 :: b3 :: b4 :: rest' =>
            (transcode rest').map (transcodeUnits (cp4 byte b2 b3 b4) ++ ·)
        | _ => none

/-- What a kernel read returns: the new offset and the value.  `none` is the
    `BytesDecodeFailure` that `decode` turns into `Nothing`. -/
abbrev ReadResult (α : Type) := Option (Int × α)

/-- `Elm_Kernel_Bytes_read_string` on the bytes of `view`; `length` and `offset`
    are `int64_t`, and the two are added only once both are known not to be
    negative. -/
def read_string (utf8_strings_enabled : Bool) (length : Int) (view : List UInt8)
    (offset : Int) : ReadResult StringForm :=
  if length = 0 then some (offset, .utf16 [])
  else if offset < 0 ∨ length < 0 ∨ (view.length : Int) < offset + length then none
  else
    let src := (view.drop offset.toNat).take length.toNat
    let result := scan src
    if result.valid = false then none
    else if utf8_strings_enabled && result.ascii then
      some (offset + length, .utf8 src)
    else (transcode src).map (fun units => (offset + length, .utf16 units))

end Utf8Kernel

import EcoCompiler.Horspool

/-! # Strings in their forms

    `StringOps`: a String is the Empty constant or an object of one of six forms, which an
    object's constructor and its proof fields keep well formed; its length is in UTF-16 units.
    Collections do not show: an object is its contents.

    * `Str`, `units` — the forms, and the units a String stands for;
    * `toStdU16String`, `allocString`, `makeRope`, … — reading a form, and making one;
    * `indexes`, `split`, `join` — the operations. -/

namespace StringOps

open Horspool

/-- What the operations read of the heap's configuration. -/
structure HeapConfig where
  string_flatten_limit : ℕ
  string_tiny_slice_limit : ℕ
  utf8_strings_enabled : Bool
  largeObjectThreshold : ℕ

/-- A byte below 0x80. -/
abbrev Ascii := {b : UInt8 // b.toNat < 0x80}

/-- The UTF-8 forms: a leaf, and a view of bytes that a leaf or a buffer holds. -/
inductive Utf8 where
  | leaf (bytes : List Ascii)
  | view (base : List Ascii) (offset byteLen : ℕ) (inside : offset + byteLen ≤ base.length)

/-- A String object: a UTF-16 leaf, a large String, a slice of one of these, a rope, or a UTF-8
    form. -/
inductive Str where
  | leaf (chars : List UInt16)
  | large (chars : List UInt16)
  | slice (base : List UInt16) (offset size : ℕ) (inside : offset + size ≤ base.length)
  | rope (left right : Str)
  | utf8 (s : Utf8)

/-- `header.size` of a UTF-8 form. -/
def Utf8.size : Utf8 → ℕ
  | .leaf bytes => bytes.length
  | .view _ _ byteLen _ => byteLen

/-- The bytes of a String stored as bytes. -/
def utf8Bytes : Utf8 → List Ascii
  | .leaf bytes => bytes
  | .view base offset byteLen _ => (base.drop offset).take byteLen

/-- `header.size`. -/
def Str.size : Str → ℕ
  | .leaf chars => chars.length
  | .large chars => chars.length
  | .slice _ _ size _ => size
  | .rope left right => left.size + right.size
  | .utf8 s => s.size

/-- The unit of a byte. -/
def widen (b : Ascii) : UInt16 := UInt16.ofNat b.val.toNat

/-- What an object stands for. -/
def Str.units : Str → List UInt16
  | .leaf chars => chars
  | .large chars => chars
  | .slice base offset size _ => (base.drop offset).take size
  | .rope left right => left.units ++ right.units
  | .utf8 s => (utf8Bytes s).map widen

/-- What a String stands for: the Empty constant for no units. -/
def units : Option Str → List UInt16
  | none => []
  | some s => s.units

/-! ## Reading a form -/

/-- How many objects a String is made of. -/
def Str.nodes : Str → ℕ
  | .rope left right => left.nodes + right.nodes + 1
  | _ => 1

/-- `forEachSegment`: the segments of the Strings on its stack, in order, widened. -/
def forEachSegment : List Str → List (List UInt16)
  | [] => []
  | .leaf chars :: stack =>
    if 0 < chars.length then chars :: forEachSegment stack else forEachSegment stack
  | .large chars :: stack =>
    if 0 < chars.length then chars :: forEachSegment stack else forEachSegment stack
  | .slice base offset size _ :: stack =>
    if size = 0 then forEachSegment stack
    else (base.drop offset).take size :: forEachSegment stack
  | .utf8 s :: stack =>
    if 0 < (utf8Bytes s).length then (utf8Bytes s).map widen :: forEachSegment stack
    else forEachSegment stack
  | .rope left right :: stack => forEachSegment (left :: right :: stack)
termination_by stack => (stack.map Str.nodes).sum
decreasing_by all_goals simp [Str.nodes]; try omega

/-- `toStdU16String`. -/
def toStdU16String (str : Str) : List UInt16 := (forEachSegment [str]).flatten

theorem Utf8.length_bytes (s : Utf8) : (utf8Bytes s).length = s.size := by
  cases s with
  | leaf bytes => rfl
  | view base offset byteLen inside =>
    simp only [utf8Bytes, Utf8.size, List.length_take, List.length_drop]
    omega

theorem Utf8.bytes_ne_nil {s : Utf8} (h : s.size ≠ 0) : utf8Bytes s ≠ [] := by
  rw [← s.length_bytes] at h
  exact List.ne_nil_of_length_pos (Nat.pos_of_ne_zero h)

theorem Str.length_units (s : Str) : s.units.length = s.size := by
  induction s with
  | leaf chars => rfl
  | large chars => rfl
  | slice base offset size inside =>
    simp only [Str.units, Str.size, List.length_take, List.length_drop]
    omega
  | rope left right ihl ihr => simp [Str.units, Str.size, ihl, ihr]
  | utf8 s => simp [Str.units, Str.size, s.length_bytes]

/-- The segments of a stack are what its Strings stand for. -/
theorem flatten_forEachSegment (stack : List Str) :
    (forEachSegment stack).flatten = (stack.map Str.units).flatten := by
  induction stack using forEachSegment.induct with
  | case1 => simp [forEachSegment]
  | case2 chars stack hpos ih => simp_all [forEachSegment, Str.units]
  | case3 chars stack hpos ih => simp_all [forEachSegment, Str.units]
  | case4 chars stack hpos ih => simp_all [forEachSegment, Str.units]
  | case5 chars stack hpos ih => simp_all [forEachSegment, Str.units]
  | case6 base offset inside stack ih => simp [forEachSegment, Str.units, ih]
  | case7 base offset size inside stack hsize ih => simp [forEachSegment, Str.units, hsize, ih]
  | case8 s stack hpos ih => simp_all [forEachSegment, Str.units]
  | case9 s stack hpos ih => simp_all [forEachSegment, Str.units]
  | case10 left right stack ih => simp [forEachSegment, Str.units, ih]

@[simp] theorem toStdU16String_eq (s : Str) : toStdU16String s = s.units := by
  simp [toStdU16String, flatten_forEachSegment]

theorem Str.toStdU16String_ne_nil {s : Str} (h : s.size ≠ 0) : toStdU16String s ≠ [] := by
  rw [toStdU16String_eq]
  rw [← s.length_units] at h
  exact List.ne_nil_of_length_pos (Nat.pos_of_ne_zero h)

/-- The size of a String or element that may be the Empty constant. -/
def sizeOf (hp : Option Str) : ℕ := (hp.map Str.size).getD 0

/-! ## Making one -/

/-- `(n + 7) & ~7`. -/
def align8 (n : ℕ) : ℕ := (n + 7) / 8 * 8

/-- A header is eight bytes. -/
def headerSize : ℕ := 8

variable (cfg : HeapConfig)

/-- `allocString`. -/
def allocString (chars : List UInt16) : Option Str :=
  if chars.length = 0 then none
  else if cfg.largeObjectThreshold ≤ align8 (headerSize + chars.length * 2) then some (.large chars)
  else some (.leaf chars)

/-- `makeUtf8LeafFromBytes`. -/
def makeUtf8LeafFromBytes (bytes : List Ascii) : Option Str :=
  if bytes.length = 0 then none
  else if ¬ cfg.utf8_strings_enabled then allocString cfg (bytes.map widen)
  else if cfg.largeObjectThreshold ≤ align8 (headerSize + bytes.length) then
    allocString cfg (bytes.map widen)
  else some (.utf8 (.leaf bytes))

/-- `makeUtf8View`: a part of a base, without a copy. -/
def makeUtf8View (base : List Ascii) (byteOffset len : ℕ)
    (inside : byteOffset + len ≤ base.length) : Option Str :=
  if len = 0 then none else some (.utf8 (.view base byteOffset len inside))

/-- `allocAsciiOut` and `finishAsciiOut`, around the bytes written between them. -/
def asciiOut (bytes : List Ascii) : Option Str :=
  if align8 (headerSize + bytes.length) < cfg.largeObjectThreshold then some (.utf8 (.leaf bytes))
  else makeUtf8View bytes 0 bytes.length (Nat.zero_add _).le

/-- `static_cast<u8>` of a unit below 0x80. -/
def narrow (u : UInt16) : Ascii :=
  ⟨UInt8.ofNat (u.toNat % 0x80), by
    rw [UInt8.toNat_ofNat', Nat.mod_eq_of_lt (by omega)]
    omega⟩

/-- `healAsciiResult`, of a leaf of these units. -/
def healAsciiResult (chars : List UInt16) : Option Str :=
  if ¬ cfg.utf8_strings_enabled then some (.leaf chars)
  else
    let acc := chars.foldl (· ||| ·) 0
    if 0x80 ≤ acc.toNat ∨ chars.length = 0 then some (.leaf chars)
    else asciiOut cfg (chars.map narrow)

/-- `makeRope`. -/
def makeRope (left right : Option Str) : Option Str :=
  match left, right with
  | some l, some r =>
    if l.size = 0 ∧ r.size = 0 then none
    else if l.size = 0 then right
    else if r.size = 0 then left
    else some (.rope l r)
  | some l, none => if l.size = 0 then none else left
  | none, some r => if r.size = 0 then none else right
  | none, none => none

/-- The stack of `buildBalancedRope`, top first, while the top is no longer than the one below. -/
def mergeTop : List (Option Str) → List (Option Str)
  | top :: next :: rest =>
    if sizeOf next < sizeOf top then top :: next :: rest else mergeTop (makeRope next top :: rest)
  | stack => stack
termination_by stack => stack.length

/-- The last loop of `buildBalancedRope`. -/
def mergeAll : List (Option Str) → Option Str
  | top :: next :: rest => mergeAll (makeRope next top :: rest)
  | [one] => one
  | [] => none
termination_by stack => stack.length

/-- `buildBalancedRope`. -/
def buildBalancedRope (parts : List (Option Str)) : Option Str :=
  match parts with
  | [] => none
  | [one] => one
  | _ => mergeAll (parts.foldl (fun stack hp => mergeTop (hp :: stack)) [])

/-- `slice` of a UTF-8 form, between two indices that are not negative. -/
def Utf8.slice (s : Utf8) (start0 end0 : ℕ) : Option Str :=
  let len := s.size
  let start := min start0 len
  let end_ := min end0 len
  if end_ ≤ start then none
  else if start = 0 ∧ end_ = len then some (.utf8 s)
  else
    let slice_len := end_ - start
    if slice_len ≤ cfg.string_tiny_slice_limit then
      makeUtf8LeafFromBytes cfg (((utf8Bytes s).drop start).take slice_len)
    else
      match s with
      | .leaf bytes =>
        makeUtf8View bytes (min start0 bytes.length)
          (min end0 bytes.length - min start0 bytes.length) (by omega)
      | .view base offset byteLen inside =>
        makeUtf8View base (offset + min start0 byteLen) (min end0 byteLen - min start0 byteLen)
          (by omega)

/-! ## Code points -/

/-- `isHighSurrogate`. -/
def isHighSurrogate (u : ℕ) : Bool := 0xD800 ≤ u && u ≤ 0xDBFF

/-- `isLowSurrogate`. -/
def isLowSurrogate (u : ℕ) : Bool := 0xDC00 ≤ u && u ≤ 0xDFFF

/-- `combineSurrogates`. -/
def combineSurrogates (hi lo : ℕ) : ℕ := 0x10000 + ((hi - 0xD800) <<< 10) + (lo - 0xDC00)

/-- `nextCodePoint` until the end. -/
def decode : List UInt16 → List ℕ
  | [] => []
  | [u] => [u.toNat]
  | u :: v :: rest =>
    if isHighSurrogate u.toNat && isLowSurrogate v.toNat then
      combineSurrogates u.toNat v.toNat :: decode rest
    else u.toNat :: decode (v :: rest)

/-- The units of a code point. -/
def encodeCodePoint (cp : ℕ) : List UInt16 :=
  if 0x10FFFF < cp then [0xFFFD]
  else if cp < 0x10000 then [UInt16.ofNat cp]
  else
    let v := cp - 0x10000
    [UInt16.ofNat (0xD800 + (v >>> 10)), UInt16.ofNat (0xDC00 + (v &&& 0x3FF))]

/-- `fromChar`. -/
def fromChar (c : ℕ) : Option Str :=
  if h : c < 0x80 ∧ cfg.utf8_strings_enabled then
    makeUtf8LeafFromBytes cfg
      [⟨UInt8.ofNat c, by rw [UInt8.toNat_ofNat', Nat.mod_eq_of_lt (by omega)]; omega⟩]
  else allocString cfg (encodeCodePoint c)

/-- `toList`: a String for each character. -/
def toList (str : Option Str) : List (Option Str) :=
  match str with
  | none => []
  | some s => (decode (toStdU16String s)).map (fromChar cfg)

/-! ## The operations -/

/-- The skip table over units is indexed by a unit's low byte. -/
def unitKeys : Keys UInt16 where
  key u := u.toNat &&& 0xFF
  slots := 256
  key_lt u := by
    have hmod : u.toNat &&& 0xFF = u.toNat % 2 ^ 8 := Nat.and_two_pow_sub_one_eq_mod u.toNat 8
    rw [hmod]
    exact Nat.mod_lt _ (by decide)

/-- That over bytes by the byte. -/
def byteKeys : Keys Ascii where
  key b := b.val.toNat
  slots := 256
  key_lt b := by
    have := b.property
    omega

/-- `indexes`. -/
def indexes (needle haystack : Option Str) : List ℕ :=
  match needle, haystack with
  | some needle, some haystack =>
    let n := toStdU16String needle
    let h := toStdU16String haystack
    if hn : n = [] then []
    else if n.length ≤ h.length then
      if 4 ≤ n.length then search unitKeys n h hn Nat.one_pos 0 else scan n h Nat.one_pos 0
    else []
  | _, _ => []

/-- Where a text is cut, by the skip table for a separator of four or more symbols. -/
def splitPositions {α : Type} [DecidableEq α] (keys : Keys α) (sep str : List α) (hsep : sep ≠ []) :
    List ℕ :=
  if 4 ≤ sep.length then search keys sep str hsep (List.length_pos_iff.mpr hsep) 0
  else scan sep str (List.length_pos_iff.mpr hsep) 0

/-- The parts between the cuts, each made from its two ends. -/
def parts (piece : ℕ → ℕ → Option Str) (sep_len str_len : ℕ) : ℕ → List ℕ → List (Option Str)
  | start, [] => [piece start str_len]
  | start, p :: ps => piece start p :: parts piece sep_len str_len (p + sep_len) ps

/-- The byte path of `split`. -/
def splitUtf8 (sep str : Utf8) (hsep : utf8Bytes sep ≠ []) : List (Option Str) :=
  parts (str.slice cfg) sep.size str.size 0
    (splitPositions byteKeys (utf8Bytes sep) (utf8Bytes str) hsep)

/-- The UTF-16 path of `split`. -/
def splitUnits (sep str : List UInt16) (hsep : sep ≠ []) : List (Option Str) :=
  parts (fun start end_ => allocString cfg ((str.drop start).take (end_ - start))) sep.length
    str.length 0 (splitPositions unitKeys sep str hsep)

/-- `split` by a separator that has units. -/
def splitBy : (sep str : Str) → sep.size ≠ 0 → List (Option Str)
  | .utf8 sep, .utf8 str, hsep =>
    if cfg.utf8_strings_enabled then splitUtf8 cfg sep str (Utf8.bytes_ne_nil hsep)
    else
      splitUnits cfg (toStdU16String (.utf8 sep)) (toStdU16String (.utf8 str))
        (Str.toStdU16String_ne_nil hsep)
  | sep, str, hsep =>
    splitUnits cfg (toStdU16String sep) (toStdU16String str) (Str.toStdU16String_ne_nil hsep)

/-- `split`. -/
def split (sep str : Option Str) : List (Option Str) :=
  match str with
  | none => [none]
  | some str =>
    if str.size = 0 then [none]
    else
      match sep with
      | none => toList cfg (some str)
      | some sep =>
        if hsep : sep.size = 0 then toList cfg (some str) else splitBy cfg sep str hsep

/-- What the copying loops of `join` write: nothing before the first. -/
def interleave {α : Type} (sep : List α) : Bool → List (List α) → List α
  | _, [] => []
  | first, x :: xs => (if first then [] else sep) ++ (x ++ interleave sep false xs)

/-- The bytes of a String that is not in a UTF-16 form. -/
def bytesOf : Option Str → Option (List Ascii)
  | none => some []
  | some (.utf8 s) => some (utf8Bytes s)
  | some _ => none

/-- The bytes of a separator, when `sepUtf8`. -/
def sepBytes (sep : Option Str) : Option (List Ascii) :=
  if sizeOf sep = 0 then some [] else bytesOf sep

/-- The segments that are copied for an element, or for a separator that has units. -/
def segmentsOf : Option Str → List UInt16
  | none => []
  | some s => toStdU16String s

/-- The parts of the rope that `join` builds: the separator and the elements that have units. -/
def ropeParts (sep : Option Str) : Bool → List (Option Str) → List (Option Str)
  | _, [] => []
  | first, x :: xs =>
    (if ¬ first ∧ 0 < sizeOf sep then [sep] else []) ++
      ((if 0 < sizeOf x then [x] else []) ++ ropeParts sep false xs)

/-- `join`. -/
def join (sep : Option Str) (stringList : List (Option Str)) : Option Str :=
  let sep_len := sizeOf sep
  let count := stringList.length
  if count = 0 then none
  else
    let total_len := (stringList.map sizeOf).sum + sep_len * (count - 1)
    if total_len = 0 then none
    else if total_len ≤ cfg.string_flatten_limit then
      match stringList.mapM bytesOf, sepBytes sep, cfg.utf8_strings_enabled with
      | some bytes, some sepB, true => asciiOut cfg (interleave sepB true bytes)
      | _, _, _ =>
        healAsciiResult cfg (interleave (segmentsOf sep) true (stringList.map segmentsOf))
    else buildBalancedRope (ropeParts sep true stringList)

end StringOps

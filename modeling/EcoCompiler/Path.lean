import Mathlib

/-! # Paths

    `Path` of the system kernel: a path is read from its text, in POSIX or Windows syntax, and
    printed again.  A text is the list of its code points.

    * `normalizeSegments` — the entries of a path as text;
    * `fromPosixString`, `toPosixString` — POSIX syntax;
    * `win32NormalizeRoot`, `win32NormalizeTail` — the normalized Windows text;
    * `win32Parse`, `win32ParseRootEnd` — the path of a normalized Windows text. -/

namespace SystemPath

/-- A text: its code points. -/
abbrev Text := List ℕ

/-- The code points of a text. -/
def text (s : String) : Text := s.toList.map Char.toNat

abbrev slash : ℕ := 0x2F
abbrev backslash : ℕ := 0x5C
abbrev dot : ℕ := 0x2E
abbrev colon : ℕ := 0x3A

/-- `Path`. -/
structure Path where
  root : Text
  directory : List Text
  filename : Text
  extension_ : Text
  deriving DecidableEq

/-! ## Shared helpers -/

/-- `isEmpty`. -/
def isEmpty (path : Path) : Bool :=
  path.root = [] && path.directory.isEmpty && path.filename = [] && path.extension_ = []

/-- `filenameWithExtension`. -/
def filenameWithExtension (path : Path) : Text :=
  if path.extension_ = [] then path.filename else path.filename ++ [dot] ++ path.extension_

/-- The entries that `format` prints. -/
def parts (path : Path) : List Text :=
  let filename := filenameWithExtension path
  if filename = [] then path.directory else path.directory ++ [filename]

/-- `format`: the parts of a path after its root. -/
def format (separator : Text) (path : Path) : Text :=
  path.root ++ separator.intercalate (parts path)

/-- `String.indexes`, of a character, counting from `i`. -/
def indexes (target i : ℕ) : Text → List ℕ
  | [] => []
  | c :: more =>
    if c = target then i :: indexes target (i + 1) more else indexes target (i + 1) more

/-- `splitExtension`: at the last dot, unless it comes first. -/
def splitExtension (base : Text) : Text × Text :=
  match (indexes dot 0 base).reverse with
  | [] => (base, [])
  | lastDot :: _ =>
    if lastDot = 0 ∨ base = [dot, dot] then (base, []) else (base.take lastDot, base.drop lastDot)

/-- `fromParts`. -/
def fromParts (root : Text) (directory : List Text) (base : Text) : Path :=
  let (name, ext) := splitExtension base
  { root := root
    directory := directory
    filename := if name = [dot] ∧ ext = [] then [] else name
    extension_ := ext.drop 1 }

/-- `step` of `normalizeSegments`. -/
def normalizeStep (allowAboveRoot : Bool) (stack : List Text) (segment : Text) : List Text :=
  if segment = [] ∨ segment = [dot] then stack
  else if segment = [dot, dot] then
    match stack with
    | top :: rest => if top = [dot, dot] then [dot, dot] :: stack else rest
    | [] => if allowAboveRoot then [[dot, dot]] else []
  else segment :: stack

/-- `normalizeSegments`: without `.`, and with `..` where nothing is left to go up from. -/
def normalizeSegments (allowAboveRoot : Bool) (segments : List Text) : List Text :=
  (segments.foldl (normalizeStep allowAboveRoot) []).reverse

section

variable {a : Type}

/-- `unsnoc`. -/
def unsnoc (list : List a) : Option (List a × a) :=
  match list.reverse with
  | [] => none
  | last :: initial => some (initial.reverse, last)

/-- `span`. -/
def span (predicate : a → Bool) : List a → List a × List a
  | x :: xs =>
    if predicate x then
      let (matched, rest) := span predicate xs
      (x :: matched, rest)
    else ([], x :: xs)
  | [] => ([], [])

/-- `dropWhile`. -/
def dropWhile (predicate : a → Bool) : List a → List a
  | x :: xs => if predicate x then dropWhile predicate xs else x :: xs
  | [] => []

/-- The last element of a list. -/
def lastOf (list : List a) : Option a := list.reverse.head?

end

/-! ## POSIX syntax -/

/-- `fromPosixString`. -/
def fromPosixString (str : Text) : Path :=
  let root := if [slash] <+: str then [slash] else []
  let segments := normalizeSegments (root = []) (str.splitOn slash)
  let dotPrefix : List Text := if [dot, slash] <+: str then [[dot]] else []
  match unsnoc segments with
  | none => { root := root, directory := dotPrefix, filename := [], extension_ := [] }
  | some (directory, base) => fromParts root (dotPrefix ++ directory) base

/-- `toPosixString`. -/
def toPosixString (path : Path) : Text :=
  if isEmpty path then [dot]
  else if path.root ≠ [] ∧ path.root ≠ [slash] then format [slash] { path with root := [slash] }
  else format [slash] path

/-! ## Windows syntax: the normalized text -/

/-- A separator of Win32 syntax. -/
def isSep (c : ℕ) : Bool := c = slash || c = backslash

/-- `isNotSep`. -/
def isNotSep (c : ℕ) : Bool := !isSep c

/-- An ASCII letter: `Char.isUpper` or `Char.isLower`. -/
def isDriveLetter (c : ℕ) : Bool := (0x41 ≤ c && c ≤ 0x5A) || (0x61 ≤ c && c ≤ 0x7A)

/-- `go` of `indexOfChar`. -/
def indexOfCharFrom (target i : ℕ) : Text → Option ℕ
  | [] => none
  | c :: more => if c = target then some i else indexOfCharFrom target (i + 1) more

/-- `indexOfChar`. -/
def indexOfChar (target : ℕ) (chars : Text) : Option ℕ := indexOfCharFrom target 0 chars

/-- The texts between the separators. -/
def splitOnSeps (chars : Text) : List Text :=
  (chars.splitOn slash).flatMap fun l => l.splitOn backslash

/-- `reservedNames`: the names of devices. -/
def reservedNames : List Text :=
  [text "CON", text "PRN", text "AUX", text "NUL",
    text "COM1", text "COM2", text "COM3", text "COM4", text "COM5", text "COM6", text "COM7",
    text "COM8", text "COM9",
    text "LPT1", text "LPT2", text "LPT3", text "LPT4", text "LPT5", text "LPT6", text "LPT7",
    text "LPT8", text "LPT9",
    text "COM¹", text "COM²", text "COM³", text "LPT¹", text "LPT²", text "LPT³"]

/-- An ASCII letter in upper case. -/
def asciiUpper (c : ℕ) : ℕ := if 0x61 ≤ c ∧ c ≤ 0x7A then c - 0x20 else c

/-- `isReservedName`: what stands before the colon names a device. -/
def isReservedName (chars : Text) (colonIndex : Option ℕ) : Bool :=
  let devicePart : Option Text :=
    match colonIndex with
    | some i => some (chars.take i)
    | none =>
      match unsnoc chars with
      | some (initial, last) => if 0xFFFF < last then none else some initial
      | none => some []
  match devicePart with
  | some part => part.map asciiUpper ∈ reservedNames
  | none => false

/-- `Win32Root`: a share with nothing after it, or where the root ends. -/
inductive Win32Root where
  | UncRootOnly (root : Text)
  | Win32Root (device : Option Text) (rootEnd : ℕ) (isAbsolute : Bool)
  deriving DecidableEq

/-- A root without a device. -/
def noDevice (isAbsolute : Bool) : Win32Root := .Win32Root none 0 isAbsolute

/-- `possibleDevice` of `win32NormalizeUnc`. -/
def possibleDevice (chars : Text) : Text :=
  match indexOfChar colon chars with
  | some colonIndex => (chars.take (colonIndex + 1)).drop 4
  | none => []

/-- `win32NormalizeUnc`, after two separators. -/
def win32NormalizeUnc (chars afterTwo : Text) : Win32Root :=
  let (firstPart, afterFirst) := span isNotSep afterTwo
  let (seps, afterSeps) := span isSep afterFirst
  let (secondPart, afterSecond) := span isNotSep afterSeps
  let first := firstPart
  if firstPart = [] ∨ afterFirst = [] ∨ afterSeps = [] then noDevice true
  else if first = text "." ∨ first = text "?" then
    let device := possibleDevice chars
    if device ≠ [] ∧ isReservedName device (some (device.length - 1)) then
      .Win32Root (some (text "\\\\?\\" ++ device)) (4 + device.length) true
    else .Win32Root (some (text "\\\\" ++ first)) 4 true
  else if afterSecond = [] then
    .UncRootOnly (text "\\\\" ++ first ++ text "\\" ++ secondPart ++ text "\\")
  else
    .Win32Root (some (text "\\\\" ++ first ++ text "\\" ++ secondPart))
      (2 + firstPart.length + seps.length + secondPart.length) true

/-- `win32NormalizeRoot`. -/
def win32NormalizeRoot (chars : Text) : Win32Root :=
  match chars with
  | c0 :: c1 :: afterTwo =>
    if isSep c0 then
      if isSep c1 then win32NormalizeUnc chars afterTwo else .Win32Root none 1 true
    else
      match indexOfChar colon chars with
      | some colonIndex =>
        if colonIndex = 1 ∧ isDriveLetter c0 then
          match afterTwo with
          | c2 :: _ =>
            if isSep c2 then .Win32Root (some [c0, c1]) 3 true
            else .Win32Root (some [c0, c1]) 2 false
          | [] => .Win32Root (some [c0, c1]) 2 false
        else if 0 < colonIndex ∧ isReservedName chars (some colonIndex) then
          .Win32Root (some (chars.take (colonIndex + 1))) (colonIndex + 1) false
        else noDevice false
      | none => noDevice false
  | _ => noDevice false

/-- `looksLikeDrive` of `win32NormalizeTail`. -/
def looksLikeDrive : Text → Bool
  | d :: c :: _ => c = colon && isDriveLetter d
  | _ => false

/-- A colon stands before a separator, or last. -/
def colonBeforeSepOrEnd : Text → Bool
  | [] => false
  | [c] => c = colon
  | c :: next :: more =>
    if c = colon then isSep next || colonBeforeSepOrEnd (next :: more)
    else colonBeforeSepOrEnd (next :: more)

/-- `win32NormalizeTail`: what is after the root, and a device before it. -/
def win32NormalizeTail (chars : Text) (device : Option Text) (rootEnd : ℕ) (isAbsolute : Bool) :
    Text :=
  let rest := chars.drop rootEnd
  let normalized := (text "\\").intercalate (normalizeSegments (!isAbsolute) (splitOnSeps rest))
  let tail0 := if normalized = [] ∧ !isAbsolute then text "." else normalized
  let tail :=
    if tail0 ≠ [] ∧ ((lastOf chars).map isSep).getD false then tail0 ++ text "\\" else tail0
  if !isAbsolute ∧ device = none ∧ colon ∈ chars ∧ (looksLikeDrive tail ∨ colonBeforeSepOrEnd chars)
  then text ".\\" ++ tail
  else if isReservedName chars (indexOfChar colon chars) then text ".\\" ++ device.getD [] ++ tail
  else
    match device with
    | none => if isAbsolute then text "\\" ++ tail else tail
    | some d => if isAbsolute then d ++ text "\\" ++ tail else d ++ tail

/-- `win32Normalize`. -/
def win32Normalize (path : Text) : Text :=
  match path with
  | [] => text "."
  | [c] => if c = slash then text "\\" else path
  | chars =>
    match win32NormalizeRoot chars with
    | .UncRootOnly root => root
    | .Win32Root device rootEnd isAbsolute => win32NormalizeTail chars device rootEnd isAbsolute

/-! ## Windows syntax: the path -/

/-- `win32ParseRootEnd`: the length of the root. -/
def win32ParseRootEnd (chars : Text) : ℕ :=
  match chars with
  | c0 :: c1 :: afterTwo =>
    if isSep c0 then
      if isSep c1 then
        let (firstPart, afterFirst) := span isNotSep afterTwo
        let (seps, afterSeps) := span isSep afterFirst
        let (secondPart, afterSecond) := span isNotSep afterSeps
        let uncEnd := 2 + firstPart.length + seps.length + secondPart.length
        if firstPart = [] ∨ afterFirst = [] ∨ afterSeps = [] then 1
        else if afterSecond = [] then uncEnd
        else uncEnd + 1
      else 1
    else if c1 = colon ∧ isDriveLetter c0 then
      match afterTwo with
      | c2 :: _ => if isSep c2 then 3 else 2
      | [] => 2
    else 0
  | [c0] => if isSep c0 then 1 else 0
  | [] => 0

/-- `win32Parse`, of a normalized path. -/
def win32Parse (normalized : Text) : Path :=
  let chars := normalized
  let rootEnd := win32ParseRootEnd chars
  let (baseReversed, beforeReversed) := span isNotSep (dropWhile isSep (chars.drop rootEnd).reverse)
  let directory :=
    match beforeReversed with
    | _ :: dirReversed => (dirReversed.reverse.splitOn backslash).filter (· ≠ [])
    | [] => []
  fromParts (chars.take rootEnd) directory baseReversed.reverse

/-- `fromWin32String`. -/
def fromWin32String (str : Text) : Path := win32Parse (win32Normalize str)

/-- `toWin32String`. -/
def toWin32String (path : Path) : Text :=
  if isEmpty path then [dot] else format [backslash] path

end SystemPath

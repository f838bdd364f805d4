import EcoCompiler.SourceLiteral

/-! # String and character literals

    `Compiler.Parse.String`: the scanners go over the source one character at a time and collect
    the chunks of a literal, newest first.

    * `eatUnicode`, `eatEscape` — what a backslash begins;
    * `chompChar`, `singleString`, `multiString` — the scanners;
    * `character`, `string` — the parsers. -/

namespace ParseString

open Primitives ParseNumber

/-- `Escape` of `Compiler.Parse.Error`. -/
inductive BadEscape where
  | EscapeUnknown
  | BadUnicodeFormat (width : ℕ)
  | BadUnicodeCode (width : ℕ)
  | BadUnicodeLength (width numDigits : ℕ) (code : ℤ)
  deriving DecidableEq

/-- `Char` of `Compiler.Parse.Error`. -/
inductive CharProblem where
  | CharEndless
  | CharEscape (escape : BadEscape)
  | CharNotString (width : ℕ)
  deriving DecidableEq

/-- `String_` of `Compiler.Parse.Error`. -/
inductive StringProblem where
  | StringEndless_Single
  | StringEndless_Multi
  | StringEscape (escape : BadEscape)
  deriving DecidableEq

/-- `Escape`: what follows a backslash. -/
inductive Escape where
  | EscapeNormal
  | EscapeUnicode (delta code : ℕ)
  | EscapeEndOfFile
  | EscapeProblem (row col : ℕ) (problem : BadEscape)
  deriving DecidableEq

/-- `'`, `"` and the backslash. -/
abbrev apostrophe : ℕ := 0x27
abbrev doubleQuoteMark : ℕ := 0x22
abbrev backslash : ℕ := 0x5C

/-- How many units the character at a position takes. -/
def charWidthAt (src : Text) (pos end_ word : ℕ) : ℕ := (codePointAt src pos end_ word).2

/-- The width of a character is one unit or two. -/
theorem charWidthAt_pos (src : Text) (pos end_ word : ℕ) : 0 < charWidthAt src pos end_ word := by
  rw [charWidthAt, codePointAt]
  split
  · split <;> exact Nat.succ_pos _
  · split
    · dsimp only
      split <;> exact Nat.succ_pos _
    · exact Nat.one_pos

section

variable (isAlpha : ℕ → Bool)

/-- `eatUnicode`, after `\u`: braces around four to six digits of a code point. -/
def eatUnicode (src : Text) (pos end_ row col : ℕ) : Escape :=
  if end_ ≤ pos ∨ unsafeIndex src pos ≠ 0x7B then .EscapeProblem row col (.BadUnicodeFormat 2)
  else
    let digitPos := pos + 1
    let (newPos, code) := chompHex isAlpha src digitPos end_
    let numDigits := newPos - digitPos
    if end_ ≤ newPos ∨ unsafeIndex src newPos ≠ 0x7D then
      .EscapeProblem row col (.BadUnicodeFormat (3 + numDigits))
    else if code < 0 ∨ 0x10FFFF < code then
      .EscapeProblem row col (.BadUnicodeCode (4 + numDigits))
    else if numDigits < 4 ∨ 6 < numDigits then
      .EscapeProblem row col (.BadUnicodeLength (4 + numDigits) numDigits code)
    else .EscapeUnicode (numDigits + 4) code.toNat

/-- `eatEscape`, after the backslash. -/
def eatEscape (src : Text) (pos end_ row col : ℕ) : Escape :=
  if end_ ≤ pos then .EscapeEndOfFile
  else
    match unsafeIndex src pos with
    | 0x6E => .EscapeNormal
    | 0x72 => .EscapeNormal
    | 0x74 => .EscapeNormal
    | 0x22 => .EscapeNormal
    | 0x27 => .EscapeNormal
    | 0x5C => .EscapeNormal
    | 0x75 => eatUnicode isAlpha src (pos + 1) end_ row col
    | _ => .EscapeProblem row col .EscapeUnknown

/-- An escape is longer than its backslash. -/
theorem eatEscape_pos {src : Text} {pos end_ row col delta code : ℕ}
    (h : eatEscape isAlpha src pos end_ row col = .EscapeUnicode delta code) : 0 < delta := by
  rw [eatEscape] at h
  split at h
  · cases h
  · split at h <;> try cases h
    rw [eatUnicode] at h
    split at h
    · cases h
    · dsimp only at h
      split_ifs at h
      cases h
      exact Nat.succ_pos _

/-! ## The scanners -/

/-- A quote mark, as it is recorded in a character. -/
def singleQuote : SourceLiteral.Chunk := .escape 0x27

/-- A double quote mark, as it is recorded in a string. -/
def doubleQuote : SourceLiteral.Chunk := .escape 0x22

/-- A line break, as it is recorded. -/
def newline : SourceLiteral.Chunk := .escape 0x6E

/-- A carriage return, as it is recorded. -/
def carriageReturn : SourceLiteral.Chunk := .escape 0x72

/-- What stands for a character before one is read. -/
def placeholder : SourceLiteral.Chunk := .codePoint 0xFFFD

/-- `CharResult`. -/
inductive CharResult where
  | good (pos col numChars : ℕ) (mostRecent : SourceLiteral.Chunk)
  | charEndless (col : ℕ)
  | charEscape (row col : ℕ) (escape : BadEscape)
  deriving DecidableEq

/-- `chompChar`: the characters up to the closing quote, counted, with the last of them. -/
def chompChar (src : Text) (pos end_ row col numChars : ℕ) (mostRecent : SourceLiteral.Chunk) :
    CharResult :=
  if end_ ≤ pos then .charEndless col
  else
    let word := unsafeIndex src pos
    if word = apostrophe then .good (pos + 1) (col + 1) numChars mostRecent
    else if word = 0x0A then .charEndless col
    else if word = doubleQuoteMark then
      chompChar src (pos + 1) end_ row (col + 1) (numChars + 1) doubleQuote
    else if word = backslash then
      match h : eatEscape isAlpha src (pos + 1) end_ row col with
      | .EscapeNormal => chompChar src (pos + 2) end_ row (col + 2) (numChars + 1) (.slice pos 2)
      | .EscapeUnicode delta code =>
        chompChar src (pos + delta) end_ row (col + delta) (numChars + 1) (.codePoint code)
      | .EscapeProblem r c badEscape => .charEscape r c badEscape
      | .EscapeEndOfFile => .charEndless col
    else
      let width := charWidthAt src pos end_ word
      chompChar src (pos + width) end_ row (col + 1) (numChars + 1) (.slice pos width)
termination_by end_ - pos
decreasing_by
  · omega
  · omega
  · have hdelta := eatEscape_pos isAlpha h
    omega
  · have hwidth := charWidthAt_pos src pos end_ (unsafeIndex src pos)
    omega

/-- `StringResult`. -/
inductive StringResult where
  | srOk (pos row col : ℕ) (text : Text) (multiline : Bool)
  | srErr (row col : ℕ) (problem : StringProblem)
  deriving DecidableEq

/-- `isDoubleQuote`. -/
def isDoubleQuote (src : Text) (pos end_ : ℕ) : Bool :=
  pos < end_ && unsafeIndex src pos = doubleQuoteMark

section

variable (lib : SourceLiteral.Packages)

/-- `finalize`: the text of the chunks read, with the units since `start`. -/
def finalize (src : Text) (start end_ : ℕ) (revChunks : List SourceLiteral.Chunk) : Text :=
  SourceLiteral.fromChunks lib src
    (if start = end_ then revChunks else .slice start (end_ - start) :: revChunks).reverse

/-- `addEscape`: the chunks with the units since `start` and an escape. -/
def addEscape (chunk : SourceLiteral.Chunk) (start end_ : ℕ)
    (revChunks : List SourceLiteral.Chunk) : List SourceLiteral.Chunk :=
  if start = end_ then chunk :: revChunks else chunk :: .slice start (end_ - start) :: revChunks

/-- `singleString`: a string on one line, after its opening mark. -/
def singleString (src : Text) (pos end_ row col initialPos : ℕ)
    (revChunks : List SourceLiteral.Chunk) : StringResult :=
  if end_ ≤ pos then .srErr row col .StringEndless_Single
  else
    let word := unsafeIndex src pos
    if word = doubleQuoteMark then
      .srOk (pos + 1) row (col + 1) (finalize lib src initialPos pos revChunks) false
    else if word = 0x0A then .srErr row col .StringEndless_Single
    else if word = apostrophe then
      let newPos := pos + 1
      singleString src newPos end_ row (col + 1) newPos
        (addEscape singleQuote initialPos pos revChunks)
    else if word = backslash then
      match h : eatEscape isAlpha src (pos + 1) end_ row col with
      | .EscapeNormal => singleString src (pos + 2) end_ row (col + 2) initialPos revChunks
      | .EscapeUnicode delta code =>
        let newPos := pos + delta
        singleString src newPos end_ row (col + delta) newPos
          (addEscape (.codePoint code) initialPos pos revChunks)
      | .EscapeProblem r c x => .srErr r c (.StringEscape x)
      | .EscapeEndOfFile => .srErr row (col + 1) .StringEndless_Single
    else
      let newPos := pos + charWidthAt src pos end_ word
      singleString src newPos end_ row (col + 1) initialPos revChunks
termination_by end_ - pos
decreasing_by
  · omega
  · omega
  · have hdelta := eatEscape_pos isAlpha h
    omega
  · have hwidth := charWidthAt_pos src pos end_ (unsafeIndex src pos)
    omega

/-- `multiString`: a string between three marks, after the opening ones. -/
def multiString (src : Text) (pos end_ row col initialPos sr sc : ℕ)
    (revChunks : List SourceLiteral.Chunk) : StringResult :=
  if end_ ≤ pos then .srErr sr sc .StringEndless_Multi
  else
    let word := unsafeIndex src pos
    if word = doubleQuoteMark ∧ isDoubleQuote src (pos + 1) end_ ∧
        isDoubleQuote src (pos + 2) end_ then
      .srOk (pos + 3) row (col + 3) (finalize lib src initialPos pos revChunks) true
    else if word = apostrophe then
      let pos1 := pos + 1
      multiString src pos1 end_ row (col + 1) pos1 sr sc
        (addEscape singleQuote initialPos pos revChunks)
    else if word = 0x0A then
      let pos1 := pos + 1
      multiString src pos1 end_ (row + 1) 1 pos1 sr sc (addEscape newline initialPos pos revChunks)
    else if word = 0x0D then
      let pos1 := pos + 1
      multiString src pos1 end_ row col pos1 sr sc
        (addEscape carriageReturn initialPos pos revChunks)
    else if word = backslash then
      match h : eatEscape isAlpha src (pos + 1) end_ row col with
      | .EscapeNormal => multiString src (pos + 2) end_ row (col + 2) initialPos sr sc revChunks
      | .EscapeUnicode delta code =>
        let newPos := pos + delta
        multiString src newPos end_ row (col + delta) newPos sr sc
          (addEscape (.codePoint code) initialPos pos revChunks)
      | .EscapeProblem r c x => .srErr r c (.StringEscape x)
      | .EscapeEndOfFile => .srErr sr sc .StringEndless_Multi
    else
      let newPos := pos + charWidthAt src pos end_ word
      multiString src newPos end_ row (col + 1) initialPos sr sc revChunks
termination_by end_ - pos
decreasing_by
  · omega
  · omega
  · omega
  · omega
  · have hdelta := eatEscape_pos isAlpha h
    omega
  · have hwidth := charWidthAt_pos src pos end_ (unsafeIndex src pos)
    omega

/-! ## The parsers -/

variable {x : Type}

/-- `character`. -/
def character (toExpectation : ℕ → ℕ → x) (toError : CharProblem → ℕ → ℕ → x) :
    Parser x Text := fun st =>
  if st.end_ ≤ st.pos ∨ unsafeIndex st.src st.pos ≠ apostrophe then
    .eerr st.row st.col toExpectation
  else
    match chompChar isAlpha st.src (st.pos + 1) st.end_ st.row (st.col + 1) 0 placeholder with
    | .good newPos newCol numChars mostRecent =>
      if numChars ≠ 1 then .cerr st.row st.col (toError (.CharNotString (newCol - st.col)))
      else
        let newState := { st with pos := newPos, col := newCol }
        let char := SourceLiteral.fromChunks lib st.src [mostRecent]
        .cok char newState
    | .charEndless newCol => .cerr st.row newCol (toError .CharEndless)
    | .charEscape r c escape => .cerr r c (toError (.CharEscape escape))

/-- What `string` scans after an opening quote. -/
def stringResult (st : State) : StringResult :=
  let pos1 := st.pos + 1
  if isDoubleQuote st.src pos1 st.end_ then
    let pos2 := st.pos + 2
    if isDoubleQuote st.src pos2 st.end_ then
      let pos3 := st.pos + 3
      let col3 := st.col + 3
      multiString isAlpha lib st.src pos3 st.end_ st.row col3 pos3 st.row st.col []
    else .srOk pos2 st.row (st.col + 2) [] false
  else singleString isAlpha lib st.src pos1 st.end_ st.row (st.col + 1) pos1 []

/-- `string`. -/
def string (toExpectation : ℕ → ℕ → x) (toError : StringProblem → ℕ → ℕ → x) :
    Parser x (Text × Bool) := fun st =>
  if isDoubleQuote st.src st.pos st.end_ then
    match stringResult isAlpha lib st with
    | .srOk newPos newRow newCol utf8 multiline =>
      .cok (utf8, multiline) { st with pos := newPos, row := newRow, col := newCol }
    | .srErr r c x => .cerr r c (toError x)
  else .eerr st.row st.col toExpectation

end

end

end ParseString

import EcoCompiler.HostDecimal
import EcoCompiler.ParseSpace

/-! # JSON

    `Compiler.Json.Encode` and the parser of `Compiler.Json.Decode`, with `k4` and `k5` of
    `Compiler.Lexer.Keyword`.  The parser reads a text as the native host does, and JavaScript
    does where the text is `Paired`.  Values are read to a depth that the caller gives; `pValue`
    takes one that is enough.

    * `Encode.escape`, `encodeUgly`, `encode` — the printer;
    * `pString`, `spaces`, `pInt` — the tokens;
    * `pObject`, `pArray`, `pValue`, `pFile` — the parser;
    * `parse` — what `fromByteString` makes of it. -/

namespace Json

open Primitives DataInt64 ParseNumber ParseString ParseSpace

/-- A text whose surrogates are all in pairs. -/
inductive Paired : Text → Prop where
  | nil : Paired []
  | unit {u : UInt16} {rest : Text} (hhigh : ¬ IsHigh u.toNat) (hlow : ¬ IsLow u.toNat)
      (h : Paired rest) : Paired (u :: rest)
  | pair {u v : UInt16} {rest : Text} (hhigh : IsHigh u.toNat) (hlow : IsLow v.toNat)
      (h : Paired rest) : Paired (u :: v :: rest)

/-- A text that the host takes apart into its characters: on JavaScript, one of pairs. -/
def Reads (host : Host) (text : Text) : Prop := host = .javascript → Paired text

/-! ## The printer -/

namespace Encode

/-- `Value`. -/
inductive Value where
  | Array (entries : List Value)
  | Object (entries : List (Text × Value))
  | StringVal (builder : Text)
  | Boolean (boolean : Bool)
  | Integer (n : ℤ)
  | Null

/-! ### Characters

    A `Char` is the text of its units, one or two; on JavaScript it is that in the source too. -/

/-- `String.toList` of the native host. -/
def nativeToList : Text → List Text
  | [] => []
  | [u] => [[u]]
  | u :: v :: rest =>
    if IsHigh u.toNat ∧ IsLow v.toNat then [u, v] :: nativeToList rest
    else [u] :: nativeToList (v :: rest)

/-- `String.foldr (::)` of JavaScript, over the units from the last to the first: a low surrogate
    takes the unit before it, whatever that is.  At the start of the text there is none, and the
    loop does not end. -/
def jsFoldr (state : List Text) : Text → Option (List Text)
  | [] => some state
  | [u] => if IsLow u.toNat then none else some ([u] :: state)
  | u :: v :: rest =>
    if IsLow u.toNat then jsFoldr ([v, u] :: state) rest else jsFoldr ([u] :: state) (v :: rest)

/-- `String.toList`. -/
def toList : Host → Text → Option (List Text)
  | .native, str => some (nativeToList str)
  | .javascript, str => jsFoldr [] str.reverse

/-- `Char.toCode`; half of a pair is its unit. -/
def toCode : Text → ℕ
  | [] => 0
  | [u] => u.toNat
  | u :: v :: _ => if IsHigh u.toNat then joined u.toNat v.toNat else u.toNat

/-- `hexDigit`. -/
def hexDigit (n : ℕ) : Text := slice n (n + 1) (ascii "0123456789abcdef")

/-- The text `escape` writes for a character; `String.fromChar` is the character itself. -/
def escapeChar (c : Text) : Text :=
  if c = [0x0D] then ascii "\\r"
  else if c = [0x0A] then ascii "\\n"
  else if c = [0x22] then ascii "\\\""
  else if c = [0x5C] then ascii "\\\\"
  else if c = [0x09] then ascii "\\t"
  else if toCode c < 0x20 then
    ascii "\\u00" ++ hexDigit (toCode c / 16) ++ hexDigit (toCode c % 16)
  else c

/-- `escape`. -/
def escape (h : Host) (chrs : Text) : Option Text :=
  (toList h chrs).map fun cs => cs.flatMap escapeChar

/-- `array`. -/
def array (entries : List Value) : Value := .Array entries

/-- `object`. -/
def object (entries : List (Text × Value)) : Value := .Object entries

/-- `string`. -/
def string (h : Host) (str : Text) : Option Value := (escape h str).map .StringVal

/-- `bool`. -/
def bool (boolean : Bool) : Value := .Boolean boolean

/-- `int`. -/
def int (n : ℤ) : Value := .Integer n

/-- `null`. -/
def null : Value := .Null

/-- `list`. -/
def list {a : Type} (encodeEntry : a → Value) (entries : List a) : Value :=
  .Array (entries.map encodeEntry)

/-- `chars`. -/
def chars (h : Host) (chrs : Text) : Option Value := (escape h chrs).map .StringVal

/-- `String.join`. -/
def join (sep : Text) (texts : List Text) : Text := sep.intercalate texts

section

variable (h : Host)

mutual

/-- `encodeUgly`. -/
def encodeUgly : Value → Text
  | .Array [] => ascii "[]"
  | .Array entries => ascii "[" ++ join (ascii ",") (uglyValues entries) ++ ascii "]"
  | .Object [] => ascii "\x7b\x7d"
  | .Object entries => ascii "\x7b" ++ join (ascii ",") (uglyEntries entries) ++ ascii "\x7d"
  | .StringVal builder => ascii "\"" ++ builder ++ ascii "\""
  | .Boolean boolean => if boolean then ascii "true" else ascii "false"
  | .Integer n => h.fromInt n
  | .Null => ascii "null"

/-- `List.map encodeUgly`. -/
def uglyValues : List Value → List Text
  | [] => []
  | value :: values => encodeUgly value :: uglyValues values

/-- `List.map encodeEntryUgly`. -/
def uglyEntries : List (Text × Value) → List Text
  | [] => []
  | (key, entry) :: entries =>
    (ascii "\"" ++ key ++ ascii "\":" ++ encodeUgly entry) :: uglyEntries entries

end

mutual

/-- `encodeHelp`, at an indentation. -/
def encodeHelp (indent : Text) : Value → Text
  | .Array [] => ascii "[]"
  | .Array (first :: rest) =>
    let newIndent := indent ++ ascii "    "
    ascii "[\n" ++ newIndent ++ encodeHelp newIndent first
      ++ addValues newIndent (ascii "\n" ++ indent ++ ascii "]") rest
  | .Object [] => ascii "\x7b\x7d"
  | .Object ((key, value) :: rest) =>
    let newIndent := indent ++ ascii "    "
    ascii "\x7b\n" ++ newIndent ++ (ascii "\"" ++ key ++ ascii "\": " ++ encodeHelp newIndent value)
      ++ addFields newIndent (ascii "\n" ++ indent ++ ascii "\x7d") rest
  | .StringVal builder => ascii "\"" ++ builder ++ ascii "\""
  | .Boolean boolean => if boolean then ascii "true" else ascii "false"
  | .Integer n => h.fromInt n
  | .Null => ascii "null"

/-- `List.foldr addValue closer` of `encodeArray`. -/
def addValues (newIndent closer : Text) : List Value → Text
  | [] => closer
  | field :: rest =>
    ascii ",\n" ++ newIndent ++ encodeHelp newIndent field ++ addValues newIndent closer rest

/-- `List.foldr addValue closer` of `encodeObject`, with `encodeField`. -/
def addFields (newIndent closer : Text) : List (Text × Value) → Text
  | [] => closer
  | (key, value) :: rest =>
    ascii ",\n" ++ newIndent ++ (ascii "\"" ++ key ++ ascii "\": " ++ encodeHelp newIndent value)
      ++ addFields newIndent closer rest

end

/-- `encode`. -/
def encode (value : Value) : Text := encodeHelp h [] value

end

end Encode

/-! ## The parser -/

/-- `AST_`. -/
inductive AST_ where
  | Array (elements : List (Located AST_))
  | Object (entries : List (Snippet × Located AST_))
  | String (snippet : Snippet)
  | Int (n : ℤ)
  | TRUE
  | FALSE
  | NULL

/-- `AST`. -/
abbrev AST := Located AST_

/-- `StringProblem`. -/
inductive Problem where
  | BadStringEnd
  | BadStringControlChar
  | BadStringEscapeChar
  | BadStringEscapeHex
  deriving DecidableEq

/-- The errors of the parser, as far as the parsers of this module raise them. -/
inductive ParseError where
  | Start (row col : ℕ)
  | ObjectField (row col : ℕ)
  | ObjectFirstField (row col : ℕ)
  | ObjectColon (row col : ℕ)
  | ObjectEnd (row col : ℕ)
  | ArrayEnd (row col : ℕ)
  | StringProblem (problem : Problem) (row col : ℕ)
  | NoLeadingZeros (row col : ℕ)
  | NoFloats (row col : ℕ)
  | BadEnd (row col : ℕ)
  deriving DecidableEq

open ParseError

/-! ### Strings -/

/-- `StringStatus`. -/
inductive StringStatus where
  | GoodString
  | BadString (problem : Problem)
  deriving DecidableEq

/-- `isHex`. -/
def isHex (word : ℕ) : Bool :=
  (0x30 ≤ word && word ≤ 0x39) || (0x61 ≤ word && word ≤ 0x66) || (0x41 ≤ word && word ≤ 0x46)

/-- `pStringHelp`. -/
def pStringHelp (src : Text) (pos end_ row col : ℕ) : (StringStatus × ℕ) × (ℕ × ℕ) :=
  if end_ ≤ pos then ((.BadString .BadStringEnd, pos), (row, col))
  else
    let word := unsafeIndex src pos
    if word = 0x22 then ((.GoodString, pos + 1), (row, col + 1))
    else if word = 0x0A then ((.BadString .BadStringEnd, pos), (row, col))
    else if word = 0x5C then
      let pos1 := pos + 1
      if end_ ≤ pos1 then ((.BadString .BadStringEnd, pos1), (row + 1, col))
      else
        let word1 := unsafeIndex src pos1
        if word1 ∈ [0x22, 0x5C, 0x2F, 0x62, 0x66, 0x6E, 0x72, 0x74] then
          pStringHelp src (pos + 2) end_ row (col + 2)
        else if word1 = 0x75 then
          if pos + 6 ≤ end_ ∧ isHex (unsafeIndex src (pos + 2)) ∧ isHex (unsafeIndex src (pos + 3))
              ∧ isHex (unsafeIndex src (pos + 4)) ∧ isHex (unsafeIndex src (pos + 5)) then
            pStringHelp src (pos + 6) end_ row (col + 6)
          else ((.BadString .BadStringEscapeHex, pos), (row, col))
        else ((.BadString .BadStringEscapeChar, pos), (row, col))
    else if word < 0x20 then ((.BadString .BadStringControlChar, pos), (row, col))
    else pStringHelp src (pos + charWidthAt src pos end_ word) end_ row (col + 1)
termination_by end_ - pos
decreasing_by
  · omega
  · omega
  · have hwidth := charWidthAt_pos src pos end_ (unsafeIndex src pos)
    omega

/-- `pString`. -/
def pString (start : ℕ → ℕ → ParseError) : Parser ParseError Snippet := fun st =>
  if st.pos < st.end_ ∧ unsafeIndex st.src st.pos = 0x22 then
    let pos1 := st.pos + 1
    let col1 := st.col + 1
    let ((status, newPos), (newRow, newCol)) := pStringHelp st.src pos1 st.end_ st.row col1
    match status with
    | .GoodString =>
      .cok ⟨st.src, pos1, newPos - pos1 - 1, st.row, col1⟩
        { st with pos := newPos, row := newRow, col := newCol }
    | .BadString problem => .cerr newRow newCol (StringProblem problem)
  else .eerr st.row st.col start

/-! ### Spaces and numbers -/

/-- `eatSpaces`. -/
def eatSpaces (src : Text) (pos end_ row col : ℕ) : ℕ × ℕ × ℕ :=
  if end_ ≤ pos then (pos, row, col)
  else
    let word := unsafeIndex src pos
    if word = 0x20 then eatSpaces src (pos + 1) end_ row (col + 1)
    else if word = 0x09 then eatSpaces src (pos + 1) end_ row (col + 1)
    else if word = 0x0A then eatSpaces src (pos + 1) end_ (row + 1) 1
    else if word = 0x0D then eatSpaces src (pos + 1) end_ row col
    else (pos, row, col)
termination_by end_ - pos

/-- `spaces`. -/
def spaces : Parser ParseError Unit := fun st =>
  let (newPos, newRow, newCol) := eatSpaces st.src st.pos st.end_ st.row st.col
  if st.pos = newPos then .eok () st
  else .cok () { st with pos := newPos, row := newRow, col := newCol }

inductive IntStatus where
  | GoodInt
  | BadIntEnd
  deriving DecidableEq

section

variable (h : Host)

/-- `chompInt`. -/
def chompInt (src : Text) (pos end_ : ℕ) (n : ℤ) : IntStatus × ℤ × ℕ :=
  if pos < end_ then
    let word := unsafeIndex src pos
    if isDecimalDigit word then
      chompInt src (pos + 1) end_ (h.add (h.mul 10 n) (word - 0x30))
    else if word = 0x2E ∨ word = 0x65 ∨ word = 0x45 then (.BadIntEnd, n, pos)
    else (.GoodInt, n, pos)
  else (.GoodInt, n, pos)
termination_by end_ - pos

/-- `pInt`. -/
def pInt : Parser ParseError AST_ := fun st =>
  if st.end_ ≤ st.pos then .eerr st.row st.col Start
  else
    let word := unsafeIndex st.src st.pos
    if ¬ isDecimalDigit word then .eerr st.row st.col Start
    else if word = 0x30 then
      let pos1 := st.pos + 1
      let newState := { st with pos := pos1, col := st.col + 1 }
      if pos1 < st.end_ then
        let word1 := unsafeIndex st.src pos1
        if isDecimalDigit word1 then .cerr st.row (st.col + 1) NoLeadingZeros
        else if word1 = 0x2E then .cerr st.row (st.col + 1) NoFloats
        else .cok (.Int 0) newState
      else .cok (.Int 0) newState
    else
      let (status, n, newPos) := chompInt h st.src (st.pos + 1) st.end_ (word - 0x30)
      let len := newPos - st.pos
      match status with
      | .GoodInt => .cok (.Int n) { st with pos := newPos, col := st.col + len }
      | .BadIntEnd => .cerr st.row (st.col + len) NoFloats

/-! ### Words -/

variable (isAlpha : ℕ → Bool)

/-- `getInnerWidth` of `Identifier`. -/
def getInnerWidth (src : Text) (pos end_ : ℕ) : ℕ :=
  if pos < end_ then getInnerWidthHelp isAlpha src pos end_ (unsafeIndex src pos) else 0

/-- A word and no more of an identifier. -/
def keyword (word : List Char) (toError : ℕ → ℕ → ParseError) : Parser ParseError Unit := fun st =>
  let newPos := st.pos + word.length
  if newPos ≤ st.end_
      ∧ (∀ w ∈ word.zipIdx, unsafeIndex st.src (st.pos + w.2) = w.1.toNat)
      ∧ getInnerWidth isAlpha st.src newPos st.end_ = 0 then
    .cok () { st with pos := newPos, col := st.col + word.length }
  else .eerr st.row st.col toError

/-- `k4`. -/
def k4 (w1 w2 w3 w4 : Char) : (ℕ → ℕ → ParseError) → Parser ParseError Unit :=
  keyword isAlpha [w1, w2, w3, w4]

/-- `k5`. -/
def k5 (w1 w2 w3 w4 w5 : Char) : (ℕ → ℕ → ParseError) → Parser ParseError Unit :=
  keyword isAlpha [w1, w2, w3, w4, w5]

/-! ### Values -/

section

variable (pValue : Parser ParseError AST)

/-- `pField`. -/
def pField : Parser ParseError (Snippet × AST) :=
  andThen (fun key =>
    map (fun value => (key, value))
      (andThen (fun _ => pValue)
        (andThen (fun _ => spaces) (andThen (fun _ => word1 ':' ObjectColon) spaces))))
    (pString ObjectField)

/-- `pObjectHelp`. -/
def pObjectHelp (revEntries : List (Snippet × AST)) :
    Parser ParseError (Step (List (Snippet × AST)) AST_) :=
  oneOf ObjectEnd
    [andThen (fun entry => map (fun _ => .loop (entry :: revEntries)) spaces)
        (andThen (fun _ => pField pValue) (andThen (fun _ => spaces) (word1 ',' ObjectEnd))),
      map (fun _ => .done (.Object revEntries.reverse)) (word1 '}' ObjectEnd)]

/-- The rounds of an object, each of which takes a comma. -/
def pEntries (revEntries : List (Snippet × AST)) : Parser ParseError AST_ := fun st =>
  loopHelp (.eerr st.row st.col ObjectEnd) (pObjectHelp pValue) (st.end_ - st.pos + 1) st revEntries
    .eok .eerr

/-- `pObject`. -/
def pObject : Parser ParseError AST_ :=
  andThen (fun _ =>
    oneOf ObjectFirstField
      [andThen (fun entry => andThen (fun _ => pEntries pValue [entry]) spaces) (pField pValue),
        map (fun _ => .Object []) (word1 '}' ObjectEnd)])
    (andThen (fun _ => spaces) (word1 '{' Start))

/-- `pArrayHelp`, for a number of elements. -/
def pArrayHelp : ℕ → List AST → Parser ParseError AST_
  | 0, _ => fun st => .eerr st.row st.col ArrayEnd
  | elements + 1, revEntries =>
    oneOf ArrayEnd
      [andThen (fun entry => andThen (fun _ => pArrayHelp elements (entry :: revEntries)) spaces)
          (andThen (fun _ => pValue) (andThen (fun _ => spaces) (word1 ',' ArrayEnd))),
        map (fun _ => .Array revEntries.reverse) (word1 ']' ArrayEnd)]

/-- The elements of an array after the first, each of which takes a comma. -/
def pElements (revEntries : List AST) : Parser ParseError AST_ := fun st =>
  pArrayHelp pValue (st.end_ - st.pos + 1) revEntries st

/-- `pArray`. -/
def pArray : Parser ParseError AST_ :=
  andThen (fun _ =>
    oneOf Start
      [andThen (fun entry => andThen (fun _ => pElements pValue [entry]) spaces) pValue,
        map (fun _ => .Array []) (word1 ']' ArrayEnd)])
    (andThen (fun _ => spaces) (word1 '[' Start))

/-- The alternatives of `pValue`, where `pValue` reads the values inside. -/
def valueWith : Parser ParseError AST :=
  addLocation (oneOf Start
    [map .String (pString Start), pObject pValue, pArray pValue, pInt h,
      map (fun _ => .TRUE) (k4 isAlpha 't' 'r' 'u' 'e' Start),
      map (fun _ => .FALSE) (k5 isAlpha 'f' 'a' 'l' 's' 'e' Start),
      map (fun _ => .NULL) (k4 isAlpha 'n' 'u' 'l' 'l' Start)])

end

/-- Values to a depth. -/
def valueTo : ℕ → Parser ParseError AST
  | 0 => fun st => .eerr st.row st.col Start
  | depth + 1 => valueWith h isAlpha (valueTo depth)

/-- A value inside another is later in the text. -/
def pValue : Parser ParseError AST := fun st => valueTo h isAlpha (st.end_ - st.pos + 1) st

/-- `pFile`. -/
def pFile : Parser ParseError AST :=
  andThen (fun value => map (fun _ => value) spaces)
    (andThen (fun _ => pValue h isAlpha) spaces)

/-- `fromByteString pFile BadEnd`. -/
def parse (src : Text) : Except ParseError AST := fromByteString (pFile h isAlpha) BadEnd src

end

end Json

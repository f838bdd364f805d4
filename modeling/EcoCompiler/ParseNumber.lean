import EcoCompiler.Primitives

/-! # Number literals

    `Compiler.Parse.Number`, with what it uses of `Compiler.Lexer.Identifier` and, as the native
    host computes it, of `Data.Int64`.  An `Int` is a signed number of 64 bits; which code points
    are letters and what `String.toFloat` answers are parameters.

    * `DataInt64.fromLiteral` — the value of an integer literal's text;
    * `chompInt`, `chompFraction`, `chompExponent`, `chompZero`, `chompHexInt` — the scanners;
    * `number` — the parser. -/

open Primitives

namespace DataInt64

/-- `2 ^ 32`. -/
def two32 : ℕ := 2 ^ 32

/-- The signed number of 64 bits that stands for a number. -/
def wrap (n : ℤ) : ℤ := n.bmod (2 ^ 64)

/-- `( hi, lo ) * m + d`; both words and all that is computed on the way are not negative. -/
def mulAdd (m d : ℕ) (words : ℕ × ℕ) : ℕ × ℕ :=
  let (hi, lo) := words
  let loFull := lo * m + d
  let carry := loFull / two32
  let hiLow16 := hi &&& 0xFFFF
  let hiHigh16 := hi >>> 16
  let newLow := hiLow16 * m + carry
  let newHigh := (hiHigh16 * m + newLow / 65536) &&& 0xFFFF
  ((newHigh * 65536 + (newLow &&& 0xFFFF)) &&& 0xFFFFFFFF, loFull - carry * two32)

/-- The value of a hexadecimal digit. -/
def hexValue (code : ℕ) : ℕ :=
  if code ≤ 0x39 then code - 0x30 else if code ≤ 0x46 then code - 0x37 else code - 0x57

/-- The characters of a String, as `uncons` takes them off. -/
def chars : Text → List ℕ
  | [] => []
  | [u] => [u.toNat]
  | u :: v :: rest =>
    if IsHigh u.toNat ∧ IsLow v.toNat then joined u.toNat v.toNat :: chars rest
    else u.toNat :: chars (v :: rest)

/-- `fromWords` on the native host: the two words are the bits of the result. -/
def fromWords (hi lo : ℕ) : Option ℤ := some (wrap (hi * two32 + lo : ℕ))

/-- `fromLiteral`. -/
def fromLiteral (text : Text) : Option ℤ :=
  let (hi, lo) :=
    if ascii "0x" <+: text then
      (chars (text.drop 2)).foldl (fun acc c => mulAdd 16 (hexValue c) acc) (0, 0)
    else (chars text).foldl (fun acc c => mulAdd 10 (c - 48) acc) (0, 0)
  fromWords hi lo

end DataInt64

namespace ParseNumber

open DataInt64

/-- `Number` of `Compiler.Parse.Error`. -/
inductive Problem where
  | NumberEnd
  | NumberDot (n : ℤ)
  | NumberHexDigit
  | NumberNoLeadingZero
  | NumberInexactOnHost
  deriving DecidableEq

/-- `Number`, with the source text; `F` are the floats. -/
inductive Number (F : Type) where
  | int (value : ℤ) (text : Text)
  | float (value : F) (text : Text)

/-- `Outcome`: what a scanner found, or where the literal is wrong. -/
inductive Outcome where
  | err_ (pos : ℕ) (problem : Problem)
  | okInt (pos : ℕ) (n : ℤ)
  | okFloat (pos : ℕ)
  deriving DecidableEq

/-- The character at an index, or a space at the end and after it. -/
def charAtPos (pos : ℕ) (src : Text) : ℕ :=
  match uncons (src.drop pos) with
  | some (char, _) => char
  | none => 32

/-- `isDecimalDigit`. -/
def isDecimalDigit (word : ℕ) : Bool := 48 ≤ word && word ≤ 57

/-- The value of a hexadecimal digit, or below zero. -/
def hexDigitValue (word : ℕ) : ℤ :=
  if 48 ≤ word ∧ word ≤ 57 then word - 48
  else if 97 ≤ word ∧ word ≤ 102 then 10 + (word - 97)
  else if 65 ≤ word ∧ word ≤ 70 then 10 + (word - 65)
  else -1

/-- `chompExponentHelp`. -/
def chompExponentHelp (src : Text) (pos end_ : ℕ) : Outcome :=
  if end_ ≤ pos then .okFloat pos
  else if isDecimalDigit (charAtPos pos src) then chompExponentHelp src (pos + 1) end_
  else .okFloat pos
termination_by end_ - pos

/-- `chompExponent`: after the `e`. -/
def chompExponent (src : Text) (pos end_ : ℕ) : Outcome :=
  if end_ ≤ pos then .err_ pos .NumberEnd
  else
    let word := charAtPos pos src
    if isDecimalDigit word then chompExponentHelp src (pos + 1) end_
    else if word = 43 ∨ word = 45 then
      let pos1 := pos + 1
      let nextWord := charAtPos pos1 src
      if pos1 < end_ ∧ isDecimalDigit nextWord then chompExponentHelp src (pos + 2) end_
      else .err_ pos .NumberEnd
    else .err_ pos .NumberEnd

section

variable (isAlpha : ℕ → Bool)

/-- `nonAsciiWidth` of `Identifier`. -/
def nonAsciiWidth (src : Text) (pos end_ code : ℕ) : ℕ :=
  let (cp, width) := codePointAt src pos end_ code
  if isAlpha cp then width else 0

/-- `getInnerWidthHelp` of `Identifier`. -/
def getInnerWidthHelp (src : Text) (pos end_ code : ℕ) : ℕ :=
  if 0x61 ≤ code ∧ code ≤ 0x7A then 1
  else if 0x41 ≤ code ∧ code ≤ 0x5A then 1
  else if 0x30 ≤ code ∧ code ≤ 0x39 then 1
  else if code = 0x5F then 1
  else if code < 0x80 then 0
  else nonAsciiWidth isAlpha src pos end_ code

/-- `isDirtyEnd`: a character that could continue a name. -/
def isDirtyEnd (src : Text) (pos end_ word : ℕ) : Bool :=
  0 < getInnerWidthHelp isAlpha src pos end_ word

/-- `chompFractionHelp`. -/
def chompFractionHelp (src : Text) (pos end_ : ℕ) : Outcome :=
  if end_ ≤ pos then .okFloat pos
  else
    let word := charAtPos pos src
    if isDecimalDigit word then chompFractionHelp src (pos + 1) end_
    else if word = 101 ∨ word = 69 then chompExponent src (pos + 1) end_
    else if isDirtyEnd isAlpha src pos end_ word then .err_ pos .NumberEnd
    else .okFloat pos
termination_by end_ - pos

/-- `chompFraction`: after the point. -/
def chompFraction (src : Text) (pos end_ : ℕ) (n : ℤ) : Outcome :=
  let pos1 := pos + 1
  if end_ ≤ pos1 then .err_ pos (.NumberDot n)
  else if isDecimalDigit (charAtPos pos1 src) then chompFractionHelp isAlpha src (pos1 + 1) end_
  else .err_ pos (.NumberDot n)

/-- `chompInt`: after the first digit. -/
def chompInt (src : Text) (pos end_ : ℕ) (n : ℤ) : Outcome :=
  if end_ ≤ pos then .okInt pos n
  else
    let word := charAtPos pos src
    if isDecimalDigit word then chompInt src (pos + 1) end_ (wrap (10 * n + (word - 48)))
    else if word = 46 then chompFraction isAlpha src pos end_ n
    else if word = 101 ∨ word = 69 then chompExponent src (pos + 1) end_
    else if isDirtyEnd isAlpha src pos end_ word then .err_ pos .NumberEnd
    else .okInt pos n
termination_by end_ - pos

/-- `chompHexHelp`. -/
def chompHexHelp (src : Text) (pos end_ : ℕ) (answer accumulator : ℤ) : ℕ × ℤ :=
  if end_ ≤ pos then (pos, answer)
  else
    let word := charAtPos pos src
    let digit := hexDigitValue word
    if digit < 0 then (pos, if isDirtyEnd isAlpha src pos end_ word then -2 else answer)
    else
      let newAnswer := wrap (16 * accumulator + digit)
      chompHexHelp src (pos + 1) end_ newAnswer newAnswer
termination_by end_ - pos

/-- `chompHex`: where the digits end, and their value. -/
def chompHex (src : Text) (pos end_ : ℕ) : ℕ × ℤ := chompHexHelp isAlpha src pos end_ (-1) 0

/-- `chompHexInt`: after `0x`. -/
def chompHexInt (src : Text) (pos end_ : ℕ) : Outcome :=
  let (newPos, answer) := chompHex isAlpha src pos end_
  if newPos = pos ∨ (newPos < end_ ∧ isDirtyEnd isAlpha src newPos end_ (charAtPos newPos src))
  then .err_ newPos .NumberHexDigit
  else .okInt newPos answer

/-- `chompZero`: after a first zero. -/
def chompZero (src : Text) (pos end_ : ℕ) : Outcome :=
  if end_ ≤ pos then .okInt pos 0
  else
    let word := charAtPos pos src
    if word = 120 then chompHexInt isAlpha src (pos + 1) end_
    else if word = 46 then chompFraction isAlpha src pos end_ 0
    else if isDecimalDigit word then .err_ pos .NumberNoLeadingZero
    else if isDirtyEnd isAlpha src pos end_ word then .err_ pos .NumberEnd
    else .okInt pos 0

/-- What `number` scans when it starts at a digit. -/
def outcome (st : State) : Outcome :=
  let word := charAtPos st.pos st.src
  if word = 48 then chompZero isAlpha st.src (st.pos + 1) st.end_
  else chompInt isAlpha st.src (st.pos + 1) st.end_ (word - 48)

variable {F x : Type} (toFloat : Text → Option F)

/-- `number`. -/
def number (toExpectation : ℕ → ℕ → x) (toError : Problem → ℕ → ℕ → x) : Parser x (Number F) :=
  fun st =>
    if st.end_ ≤ st.pos then .eerr st.row st.col toExpectation
    else if ¬ isDecimalDigit (charAtPos st.pos st.src) then .eerr st.row st.col toExpectation
    else
      match outcome isAlpha st with
      | .err_ newPos problem => .cerr st.row (st.col + (newPos - st.pos)) (toError problem)
      | .okInt newPos n =>
        let newCol := st.col + (newPos - st.pos)
        let text := (st.src.drop st.pos).take (newPos - st.pos)
        let newState := { st with pos := newPos, col := newCol }
        if 0 ≤ n ∧ n ≤ 0x0020000000000000 then .cok (.int n text) newState
        else
          match fromLiteral text with
          | some exact_ => .cok (.int exact_ text) newState
          | none => .cerr st.row st.col (toError .NumberInexactOnHost)
      | .okFloat newPos =>
        let newCol := st.col + (newPos - st.pos)
        let raw := (st.src.drop st.pos).take (newPos - st.pos)
        match toFloat raw with
        | some copy_ => .cok (.float copy_ raw) { st with pos := newPos, col := newCol }
        | none => .eerr st.row newCol toExpectation

end

end ParseNumber

import EcoCompiler.ParseNumber

/-! # The text of a string literal

    `Compiler.IR.Source.StringLiteral`: a literal is recorded as chunks of its source and escapes,
    written as the body of a literal, and read back as the value it denotes.

    * `fromChunks` — from chunks to the escaped text;
    * `codePoints`, `valueKey` — from escaped text to its value. -/

namespace SourceLiteral

open Primitives DataInt64

/-- `Chunk`: units of the source, an escape, or a code point. -/
inductive Chunk where
  | slice (ptr len : ℕ)
  | escape (word : UInt16)
  | codePoint (code : ℕ)
  deriving DecidableEq

/-! ## Writing -/

/-- The functions of other packages that are called here: `toString` of `Hex` and `divMod` of
    `Numeric.Integer`. -/
structure Packages where
  hexToString : ℤ → Text
  divMod : ℤ → ℤ → ℤ × ℤ

/-- What the packages document of numbers that are not negative. -/
class Packages.Documented (lib : Packages) : Prop where
  /-- The hexadecimal digits in lower case, of which only zero starts with a zero. -/
  hexToString_eq : ∀ n : ℕ,
    lib.hexToString n = (Nat.toDigits 16 n).map fun c => UInt16.ofNat c.toNat
  /-- The quotient and what is left of it. -/
  divMod_eq : ∀ n d : ℕ, 0 < d → lib.divMod n d = (((n / d : ℕ) : ℤ), ((n % d : ℕ) : ℤ))

/-- `Char.toUpper`, of a digit or a letter before `g`. -/
def charToUpper (u : UInt16) : UInt16 := if 0x61 ≤ u.toNat then UInt16.ofNat (u.toNat - 0x20) else u

/-- `String.padLeft`. -/
def padLeft (n : ℕ) (char : UInt16) (text : Text) : Text :=
  List.replicate (n - text.length) char ++ text

section

variable (lib : Packages)

/-- `writeCode`: an escape of four digits. -/
def writeCode (code : ℤ) : Text :=
  [0x5C, 0x75] ++ padLeft 4 0x30 ((lib.hexToString code).map charToUpper)

/-- `writeChunks`: the pieces in reverse order. -/
def writeChunks (src : Text) (acc : List Text) : List Chunk → List Text
  | [] => acc
  | .slice ptr len :: otherChunks => writeChunks src ((src.drop ptr).take len :: acc) otherChunks
  | .escape word :: otherChunks => writeChunks src ([word] :: [0x5C] :: acc) otherChunks
  | .codePoint code :: otherChunks =>
    if code ≤ 0xFFFF then writeChunks src (writeCode lib code :: acc) otherChunks
    else
      let (hi, lo) := lib.divMod (code - 0x10000) 0x400
      let hiCode := writeCode lib (hi + 0xD800)
      let lowCode := writeCode lib (lo + 0xDC00)
      writeChunks src (lowCode :: hiCode :: acc) otherChunks

/-- `fromChunks`. -/
def fromChunks (src : Text) (chunks : List Chunk) : Text :=
  (writeChunks lib src [] chunks).reverse.flatten

end

/-! ## Reading -/

/-- `hexValue`, of uppercase digits. -/
def hexValue (digits : List ℕ) : ℤ :=
  digits.foldl
    (fun (acc : ℤ) (code : ℕ) =>
      acc * 16 + (if code ≤ 0x39 then (code : ℤ) - 0x30 else (code : ℤ) - 0x37)) 0

/-- `decodeUnits`. -/
def decodeUnits : List ℕ → List ℤ → List ℤ
  | [], acc => acc.reverse
  | 0x5C :: 0x75 :: a :: b :: c :: d :: rest, acc => decodeUnits rest (hexValue [a, b, c, d] :: acc)
  | 0x5C :: 0x6E :: rest, acc => decodeUnits rest (0x0A :: acc)
  | 0x5C :: 0x72 :: rest, acc => decodeUnits rest (0x0D :: acc)
  | 0x5C :: 0x74 :: rest, acc => decodeUnits rest (0x09 :: acc)
  | 0x5C :: escaped :: rest, acc => decodeUnits rest ((escaped : ℤ) :: acc)
  | c :: rest, acc => decodeUnits rest ((c : ℤ) :: acc)

/-- `combineSurrogates`. -/
def combineSurrogates (acc : List ℤ) : List ℤ → List ℤ
  | hi :: lo :: rest =>
    if 0xD800 ≤ hi ∧ hi ≤ 0xDBFF ∧ 0xDC00 ≤ lo ∧ lo ≤ 0xDFFF then
      combineSurrogates (((hi - 0xD800) * 0x400 + (lo - 0xDC00) + 0x10000) :: acc) rest
    else combineSurrogates (hi :: acc) (lo :: rest)
  | [u] => (u :: acc).reverse
  | [] => acc.reverse

/-- `codePoints`. -/
def codePoints (text : Text) : List ℤ := combineSurrogates [] (decodeUnits (chars text) [])

/-- `String.fromInt`. -/
def fromInt (n : ℤ) : Text := ascii (toString n)

/-- `valueKey`. -/
def valueKey (text : Text) : Text := [0x2C].intercalate ((codePoints text).map fromInt)

end SourceLiteral

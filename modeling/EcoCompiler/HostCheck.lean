import Mathlib

/-! # The check of a Host value

    `validHost` of `Http1.cpp`: a string is the list of its bytes, an index into one is the
    position of what is left of it, and the classes of characters are those of the C locale.

    * `find` — the position of a substring;
    * `validIpv4`, `validIpv6`, `validIpLiteral` — what may stand between brackets;
    * `validHost` — the check. -/

namespace HostCheck

/-- A `std::string`. -/
abbrev Bytes := List UInt8

/-- The byte of an ASCII character. -/
abbrev ch (c : Char) : UInt8 := UInt8.ofNat c.toNat

/-- `s.find(pat, from)`. -/
def find (pat s : Bytes) (start : ℕ) : Option ℕ :=
  (List.range' start (s.length - start)).find? fun i => pat.isPrefixOf (s.drop i)

/-- `isDigit`. -/
def isDigit (c : UInt8) : Bool := 48 ≤ c.toNat && c.toNat ≤ 57

/-- `isAlnum`. -/
def isAlnum (c : UInt8) : Bool :=
  isDigit c || (65 ≤ c.toNat && c.toNat ≤ 90) || (97 ≤ c.toNat && c.toNat ≤ 122)

/-- `isHex`. -/
def isHex (c : UInt8) : Bool :=
  isDigit c || (65 ≤ c.toNat && c.toNat ≤ 70) || (97 ≤ c.toNat && c.toNat ≤ 102)

/-- `isRegNameChar`. -/
def isRegNameChar (c : UInt8) : Bool :=
  isAlnum c ||
    ['-', '.', '_', '~', '!', '$', '&', Char.ofNat 39, '(', ')', '*', '+', ',', ';', '='].any
      fun d => c = ch d

/-- `isUnreserved`. -/
def isUnreserved (c : UInt8) : Bool := isAlnum c || ['-', '.', '_', '~'].any fun d => c = ch d

/-! ## Addresses -/

/-- The digits of a part of an address, at most so many: their value, and what is left. -/
def octetLoop : ℕ → ℕ → Bytes → ℕ × Bytes
  | k + 1, v, c :: s => if isDigit c then octetLoop k (v * 10 + (c.toNat - 48)) s else (v, c :: s)
  | _, v, s => (v, s)

/-- One turn of the loop over the parts: what is left after it. -/
def ipv4Part (s : Bytes) (part : ℕ) : Option Bytes := do
  let b ←
    if 0 < part then
      match s with
      | c :: t => if c = ch '.' then some t else none
      | [] => none
    else some s
  let (v, t) := octetLoop 3 0 b
  let len := b.length - t.length
  if len = 0 ∨ 255 < v ∨ (1 < len ∧ b.head? = some (ch '0')) then none else some t

/-- `validIpv4`. -/
def validIpv4 (s : Bytes) : Bool := [0, 1, 2, 3].foldlM ipv4Part s = some []

/-- A group that is not one to four hexadecimal digits. -/
def badGroup (g : Bytes) : Bool := g.isEmpty || 4 < g.length || !g.all isHex

theorem find_lt {pat s : Bytes} {start i : ℕ} (h : find pat s start = some i) : i < s.length := by
  have hmem := List.mem_of_find?_eq_some h
  rw [List.mem_range'_1] at hmem
  omega

/-- The loop over the groups of a part that is not empty. -/
def ipv6PiecesLoop (v4Last : Bool) (s : Bytes) (count : ℕ) : Option ℕ :=
  match h : find [ch ':'] s 0 with
  | none =>
    if v4Last && s.contains (ch '.') then if validIpv4 s then some (count + 2) else none
    else if badGroup s then none
    else some (count + 1)
  | some e =>
    if badGroup (s.take e) then none else ipv6PiecesLoop v4Last (s.drop (e + 1)) (count + 1)
termination_by s.length
decreasing_by
  have := find_lt h
  simp
  omega

/-- The pieces of a part, if it has its form. -/
def ipv6Pieces (part : Bytes) (v4Last : Bool) : Option ℕ :=
  if part.isEmpty then some 0 else ipv6PiecesLoop v4Last part 0

/-- `validIpv6`. -/
def validIpv6 (s : Bytes) : Bool :=
  match find [ch ':', ch ':'] s 0 with
  | none => ipv6Pieces s true = some 8
  | some gap =>
    if (find [ch ':', ch ':'] s (gap + 1)).isSome then false
    else
      match ipv6Pieces (s.take gap) false with
      | none => false
      | some n =>
        match ipv6Pieces (s.drop (gap + 2)) true with
        | none => false
        | some m => n + m ≤ 7

/-! ## Literals -/

/-- The loop over a zone id. -/
def zoneLoop : Bytes → Bool
  | [] => true
  | c :: s =>
    if c = ch '%' then
      match s with
      | x :: y :: t => if isHex x && isHex y then zoneLoop t else false
      | _ => false
    else if isUnreserved c then zoneLoop s
    else false

/-- `validIpLiteral`: what stands between the brackets. -/
def validIpLiteral (s : Bytes) : Bool :=
  match s with
  | [] => false
  | c :: _ =>
    if c = ch 'v' || c = ch 'V' then
      match find [ch '.'] s 0 with
      | none => false
      | some dot =>
        if dot < 2 || dot + 1 = s.length then false
        else
          ((s.take dot).drop 1).all isHex &&
            (s.drop (dot + 1)).all fun d => isRegNameChar d || d = ch ':'
    else
      match find [ch '%'] s 0 with
      | none => validIpv6 s
      | some pct =>
        if (s.drop pct).take 3 ≠ [ch '%', ch '2', ch '5'] || pct + 3 = s.length then false
        else if zoneLoop (s.drop (pct + 3)) then validIpv6 (s.take pct)
        else false

/-! ## The check -/

/-- The loop over a registered name, up to a colon: how much it has of it, and what is left. -/
def regNameLoop : Bytes → ℕ → Option (ℕ × Bytes)
  | [], n => some (n, [])
  | c :: s, n =>
    if c = ch ':' then some (n, c :: s)
    else if c = ch '%' then
      match s with
      | x :: y :: t => if isHex x && isHex y then regNameLoop t (n + 1) else none
      | _ => none
    else if isRegNameChar c then regNameLoop s (n + 1)
    else none

/-- What is left of a value after its host. -/
def hostRest (h : Bytes) : Option Bytes :=
  if h.head? = some (ch '[') then
    match find [ch ']'] h 0 with
    | none => none
    | some close =>
      if validIpLiteral ((h.drop 1).take (close - 1)) then some (h.drop (close + 1)) else none
  else
    match regNameLoop h 0 with
    | none => none
    | some (n, rest) => if n = 0 then none else some rest

/-- `validHost`. -/
def validHost (h : Bytes) : Bool :=
  if h.isEmpty then false
  else
    match hostRest h with
    | none => false
    | some [] => true
    | some (c :: port) =>
      if c ≠ ch ':' then false else if 5 < port.length then false else port.all isDigit

end HostCheck

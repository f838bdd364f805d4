import EcoCompiler.CanonicalPatterns
import EcoCompiler.ParseNumberSpec
import EcoCompiler.SourceLiteral

/-! # What a literal denotes

    A literal is a sequence of items between its quotes: units of the source and escapes.  It
    denotes a sequence of UTF-16 units, and is recorded as a text of units and other escapes.

    * `Item`, `IsString`, `IsCharacter` — the grammar;
    * `codePoints_written` — the text that is recorded is read back as what is denoted;
    * `valueKey_eq_iff` — keys compare what is denoted;
    * `codePoints_utf16` — a text of characters is read as the patterns of a `case` are. -/

namespace SourceLiteral

open Primitives DataInt64 ParseNumber

/-! ## The grammar -/

/-- A unit of the source, an escape of one letter, or `\u` with digits in braces. -/
inductive Item where
  | raw (u : UInt16)
  | escape (c : UInt16)
  | unicode (digits : Text)

/-- The units of a code point. -/
def utf16 (code : ℕ) : Text :=
  if code ≤ 0xFFFF then [UInt16.ofNat code]
  else
    [UInt16.ofNat ((code - 0x10000) / 0x400 + 0xD800),
      UInt16.ofNat ((code - 0x10000) % 0x400 + 0xDC00)]

/-- `n`, `r`, `t`, the quotes and the backslash. -/
def IsEscape (c : UInt16) : Prop :=
  c = 0x6E ∨ c = 0x72 ∨ c = 0x74 ∨ c = 0x22 ∨ c = 0x27 ∨ c = 0x5C

instance (c : UInt16) : Decidable (IsEscape c) :=
  inferInstanceAs (Decidable (_ ∨ _ ∨ _ ∨ _ ∨ _ ∨ _))

/-- The unit that a one-letter escape stands for. -/
def escapeValue (c : UInt16) : UInt16 :=
  if c = 0x6E then 0x0A else if c = 0x72 then 0x0D else if c = 0x74 then 0x09 else c

/-- Four to six digits of a code point. -/
def IsCode (ds : Text) : Prop :=
  4 ≤ ds.length ∧ ds.length ≤ 6 ∧ (∀ u ∈ ds, IsHexDigit u) ∧ valueFrom 16 0 ds ≤ 0x10FFFF

/-- How an item is written in the source. -/
def Item.text : Item → Text
  | .raw u => [u]
  | .escape c => [0x5C, c]
  | .unicode ds => 0x5C :: 0x75 :: 0x7B :: (ds ++ [0x7D])

/-- What an item denotes. -/
def Item.units : Item → Text
  | .raw u => [u]
  | .escape c => [escapeValue c]
  | .unicode ds => utf16 (valueFrom 16 0 ds)

/-- A string in single quotation marks, one in triple ones, and a character. -/
inductive Style where
  | single
  | multi
  | char
  deriving DecidableEq

/-- What may stand between the quotes. -/
def Item.Ok (style : Style) : Item → Prop
  | .raw u => u ≠ 0x5C ∧ (style = .single → u ≠ 0x22 ∧ u ≠ 0x0A) ∧
      (style = .char → u ≠ 0x27 ∧ u ≠ 0x0A)
  | .escape c => IsEscape c
  | .unicode ds => IsCode ds

/-- The source text of items. -/
def text (items : List Item) : Text := items.flatMap Item.text

/-- The units that items stand for. -/
def units (items : List Item) : Text := items.flatMap Item.units

/-- The quotes of a string. -/
def quotes (multi : Bool) : Text := if multi then [0x22, 0x22, 0x22] else [0x22]

/-- None of the items starts the closing marks. -/
def StaysOpen (items : List Item) : Prop :=
  ∀ a b, items = a ++ b → b ≠ [] → ¬ quotes true <+: text b ++ quotes true

/-- The style of a string. -/
def Style.ofMulti (multi : Bool) : Style := if multi then .multi else .single

/-- A string before the text `t`: an empty one is not followed by a third mark, and in triple
    marks none of its items starts the closing ones. -/
def IsString (multi : Bool) (items : List Item) (t : Text) : Prop :=
  (∀ i ∈ items, i.Ok (.ofMulti multi)) ∧
    if multi then StaysOpen items else items = [] → t.head? ≠ some 0x22

/-- A character is an item, or the two units of one. -/
def IsCharacter (items : List Item) : Prop :=
  (∀ i ∈ items, i.Ok .char) ∧ ((∃ i, items = [i]) ∨
    ∃ u v, items = [.raw u, .raw v] ∧ IsHigh u.toNat ∧ IsLow v.toNat)

/-! ## What is recorded -/

/-- The uppercase digit of a number below sixteen. -/
def upperDigit (n : ℕ) : UInt16 := UInt16.ofNat (if n < 10 then 0x30 + n else 0x37 + n)

/-- The escape of a unit, of four digits. -/
def unitText (code : ℕ) : Text :=
  [0x5C, 0x75, upperDigit (code / 0x1000), upperDigit (code / 0x100 % 16),
    upperDigit (code / 0x10 % 16), upperDigit (code % 16)]

/-- The escapes that stand for a code point. -/
def codeText (code : ℕ) : Text :=
  if code ≤ 0xFFFF then unitText code
  else
    unitText ((code - 0x10000) / 0x400 + 0xD800) ++
      unitText ((code - 0x10000) % 0x400 + 0xDC00)

/-- How an item is recorded. -/
def Item.written (style : Style) : Item → Text
  | .raw u =>
    if u = 0x27 ∧ style ≠ .char then [0x5C, 0x27]
    else if u = 0x22 ∧ style = .char then [0x5C, 0x22]
    else if u = 0x0A ∧ style = .multi then [0x5C, 0x6E]
    else if u = 0x0D ∧ style = .multi then [0x5C, 0x72]
    else [u]
  | .escape c => [0x5C, c]
  | .unicode ds => codeText (valueFrom 16 0 ds)

/-- What is written for items. -/
def written (style : Style) (items : List Item) : Text := items.flatMap (Item.written style)

/-! ## Characters of a text -/

/-- A unit that starts no pair is a character of its own. -/
theorem chars_cons {u : UInt16} {l : Text} (h : IsHigh u.toNat → ∀ v ∈ l.head?, ¬ IsLow v.toNat) :
    chars (u :: l) = u.toNat :: chars l := by
  cases l with
  | nil => rfl
  | cons v l =>
    rw [chars, if_neg]
    rintro ⟨hu, hv⟩
    exact h hu v rfl hv

/-- A surrogate pair is one character. -/
theorem chars_pair {u v : UInt16} (hu : IsHigh u.toNat) (hv : IsLow v.toNat) (l : Text) :
    chars (u :: v :: l) = joined u.toNat v.toNat :: chars l := by
  rw [chars, if_pos ⟨hu, hv⟩]

/-- Units outside every pair are characters of their own, whatever follows. -/
theorem chars_append {a : Text} (h : ∀ u ∈ a, ¬ IsHigh u.toNat) (l : Text) :
    chars (a ++ l) = a.map UInt16.toNat ++ chars l := by
  induction a with
  | nil => rfl
  | cons u a ih =>
    rw [List.cons_append, chars_cons fun hu => absurd hu (h u (List.mem_cons_self ..)),
      ih fun v hv => h v (List.mem_cons_of_mem u hv)]
    rfl

/-! ## The digits of a code -/

/-- The code of an upper case hex digit. -/
theorem toNat_upperDigit {n : ℕ} (h : n < 16) :
    (upperDigit n).toNat = if n < 10 then 0x30 + n else 0x37 + n := by
  rw [upperDigit, UInt16.toNat_ofNat', Nat.mod_eq_of_lt]
  split <;> omega

/-- The digit in upper case is the upper case digit. -/
theorem charToUpper_digitChar {n : ℕ} (h : n < 16) :
    charToUpper (UInt16.ofNat n.digitChar.toNat) = upperDigit n := by
  interval_cases n <;> rfl

/-- A code is written as its four digits. -/
theorem writeCode_eq (lib : Packages) [lib.Documented] {code : ℕ} (h : code ≤ 0xFFFF) :
    writeCode lib code = unitText code := by
  have hmod : ∀ n, charToUpper (UInt16.ofNat (n % 16).digitChar.toNat) = upperDigit (n % 16) :=
    fun n => charToUpper_digitChar (Nat.mod_lt n (by decide))
  have h2 : code / 16 / 16 = code / 0x100 := Nat.div_div_eq_div_mul code 16 16
  have h3 : code / 0x100 / 16 = code / 0x1000 := Nat.div_div_eq_div_mul code 0x100 16
  rw [writeCode, Packages.Documented.hexToString_eq, List.map_map, unitText]
  by_cases h16 : code < 16
  · rw [Nat.toDigits_of_lt_base h16, List.map_singleton, Function.comp_apply,
      charToUpper_digitChar h16, Nat.div_eq_of_lt (by omega : code < 0x1000),
      Nat.div_eq_of_lt (by omega : code < 0x100), Nat.div_eq_of_lt (by omega : code < 0x10),
      Nat.mod_eq_of_lt h16]
    rfl
  rw [Nat.toDigits_of_base_le (by decide) (by omega), List.map_append, List.map_singleton,
    Function.comp_apply, hmod]
  by_cases h256 : code / 16 < 16
  · rw [Nat.toDigits_of_lt_base h256, List.map_singleton, Function.comp_apply,
      charToUpper_digitChar h256, Nat.div_eq_of_lt (by omega : code < 0x1000),
      Nat.div_eq_of_lt (by omega : code < 0x100), Nat.mod_eq_of_lt h256]
    rfl
  rw [Nat.toDigits_of_base_le (by decide) (by omega), List.map_append, List.map_singleton,
    Function.comp_apply, hmod, h2]
  by_cases h4096 : code / 0x100 < 16
  · rw [Nat.toDigits_of_lt_base h4096, List.map_singleton, Function.comp_apply,
      charToUpper_digitChar h4096, Nat.div_eq_of_lt (by omega : code < 0x1000),
      Nat.mod_eq_of_lt h4096]
    rfl
  · have hlast : code / 0x1000 < 16 := by omega
    rw [Nat.toDigits_of_base_le (by decide) (by omega), List.map_append, List.map_singleton,
      Function.comp_apply, hmod, h3, Nat.toDigits_of_lt_base hlast, List.map_singleton,
      Function.comp_apply, charToUpper_digitChar hlast]
    rfl

/-- The digits are read back. -/
theorem hexValue_digits {code : ℕ} (h : code ≤ 0xFFFF) :
    hexValue [(upperDigit (code / 0x1000)).toNat, (upperDigit (code / 0x100 % 16)).toNat,
      (upperDigit (code / 0x10 % 16)).toNat, (upperDigit (code % 16)).toNat] = code := by
  have hdigit : ∀ n < 16, (if (upperDigit n).toNat ≤ 0x39 then ((upperDigit n).toNat : ℤ) - 0x30
      else ((upperDigit n).toNat : ℤ) - 0x37) = n := by
    intro n hn
    rw [toNat_upperDigit hn]
    split_ifs <;> omega
  have hmod : ∀ n, n % 16 < 16 := fun n => Nat.mod_lt n (by decide)
  simp only [hexValue, List.foldl_cons, List.foldl_nil, hdigit _ (hmod _),
    hdigit (code / 0x1000) (by omega)]
  omega

theorem upperDigit_not_high (n : ℕ) (h : n < 16) : ¬ IsHigh (upperDigit n).toNat := by
  rw [toNat_upperDigit h]
  rintro ⟨hle, -⟩
  split at hle <;> omega

/-- An escape is written without surrogates. -/
theorem unitText_not_high {code : ℕ} (h : code ≤ 0xFFFF) :
    ∀ u ∈ unitText code, ¬ IsHigh u.toNat := by
  have hmod : ∀ n, n % 16 < 16 := fun n => Nat.mod_lt n (by decide)
  intro u hu
  simp only [unitText, List.mem_cons, List.not_mem_nil, or_false] at hu
  rcases hu with rfl | rfl | rfl | rfl | rfl | rfl
  · decide
  · decide
  · exact upperDigit_not_high _ (by omega)
  · exact upperDigit_not_high _ (hmod _)
  · exact upperDigit_not_high _ (hmod _)
  · exact upperDigit_not_high _ (hmod _)

/-! ## Reading back -/

/-- The reader of a literal takes a plain unit as it is. -/
theorem decodeUnits_plain {c : ℕ} (hc : c ≠ 0x5C) (rest : List ℕ) (acc : List ℤ) :
    decodeUnits (c :: rest) acc = decodeUnits rest ((c : ℤ) :: acc) := by
  rw [decodeUnits]
  all_goals
    intros
    contradiction

/-- The reader of a literal takes a one-letter escape to its unit. -/
theorem decodeUnits_escape {c : UInt16} (hc : IsEscape c) (rest : List ℕ) (acc : List ℤ) :
    decodeUnits (0x5C :: c.toNat :: rest) acc
      = decodeUnits rest (((escapeValue c).toNat : ℤ) :: acc) := by
  rcases hc with rfl | rfl | rfl | rfl | rfl | rfl
  all_goals rfl

/-- The reader of a literal takes a unicode escape to its unit. -/
theorem decodeUnits_code {code : ℕ} (h : code ≤ 0xFFFF) (rest : List ℕ) (acc : List ℤ) :
    decodeUnits ((unitText code).map UInt16.toNat ++ rest) acc
      = decodeUnits rest ((code : ℤ) :: acc) := by
  rw [unitText, ← hexValue_digits h]
  rfl

/-- What a list of units and whole code points stands for. -/
inductive Expands : List ℤ → Text → Prop where
  | nil : Expands [] []
  | unit (u : UInt16) {xs : List ℤ} {us : Text} (h : Expands xs us) :
      Expands ((u.toNat : ℤ) :: xs) (u :: us)
  | pair {u v : UInt16} (hu : IsHigh u.toNat) (hv : IsLow v.toNat) {xs : List ℤ} {us : Text}
      (h : Expands xs us) : Expands ((joined u.toNat v.toNat : ℤ) :: xs) (u :: v :: us)

/-- A joined pair, in the integers. -/
theorem joined_eq {u v : UInt16} (hu : IsHigh u.toNat) (hv : IsLow v.toNat) :
    ((joined u.toNat v.toNat : ℕ) : ℤ)
      = ((u.toNat : ℤ) - 0xD800) * 0x400 + ((v.toNat : ℤ) - 0xDC00) + 0x10000 := by
  obtain ⟨h1, h2⟩ := hu
  obtain ⟨h3, h4⟩ := hv
  have heq : joined u.toNat v.toNat
      = 0x10000 + (u.toNat - 0xD800) * 0x400 + (v.toNat - 0xDC00) := rfl
  omega

/-- A joined pair lies above FFFF. -/
theorem lt_joined {u v : UInt16} (hu : IsHigh u.toNat) (hv : IsLow v.toNat) :
    (0xFFFF : ℤ) < (joined u.toNat v.toNat : ℕ) := by
  have h := joined_eq hu hv
  obtain ⟨h1, h2⟩ := hu
  obtain ⟨h3, h4⟩ := hv
  omega

/-- The first unit that a list stands for, when its first entry is no whole code point. -/
theorem Expands.head_low {x : ℤ} {xs : List ℤ} {us : Text} (h : Expands (x :: xs) us)
    {v : UInt16} (hv : v ∈ us.head?) (hlow : IsLow v.toNat) : x = v.toNat := by
  cases h with
  | unit u h =>
    obtain rfl := Option.some.inj hv
    rfl
  | pair hu hv' h =>
    obtain rfl := Option.some.inj hv
    obtain ⟨h1, h2⟩ := hu
    obtain ⟨h3, h4⟩ := hlow
    omega

/-- Joining the surrogates of a list gives the characters it stands for. -/
theorem combineSurrogates_eq {xs acc : List ℤ} {us : Text} (h : Expands xs us) :
    combineSurrogates acc xs = acc.reverse ++ (chars us).map (fun c : ℕ => (c : ℤ)) := by
  -- the cases of the source: two codes that join, two that do not, one code, none
  induction acc, xs using combineSurrogates.induct generalizing us with
  | case1 acc hi lo rest hpair ih =>
    obtain ⟨h1, h2, h3, h4⟩ := hpair
    cases h with
    | pair hu hv h =>
      have hlt := lt_joined hu hv
      omega
    | unit u h =>
      cases h with
      | pair hu hv h =>
        have hlt := lt_joined hu hv
        omega
      | unit v h =>
        have hu : IsHigh u.toNat := ⟨by omega, by omega⟩
        have hv : IsLow v.toNat := ⟨by omega, by omega⟩
        rw [combineSurrogates, if_pos ⟨h1, h2, h3, h4⟩, ih h, chars_pair hu hv, ← joined_eq hu hv,
          List.map_cons, List.reverse_cons, List.append_assoc]
        rfl
  | case2 acc hi lo rest hnot ih =>
    rw [combineSurrogates, if_neg hnot]
    cases h with
    | pair hu hv h =>
      rw [ih h, chars_pair hu hv, List.map_cons, List.reverse_cons, List.append_assoc]
      rfl
    | @unit u _ us h =>
      rw [ih h, chars_cons]
      · rw [List.map_cons, List.reverse_cons, List.append_assoc]
        rfl
      -- the units were not joined, so they are no pair
      · intro hu v hv hlow
        obtain rfl := h.head_low hv hlow
        obtain ⟨h1, h2⟩ := hu
        obtain ⟨h3, h4⟩ := hlow
        exact hnot ⟨by omega, by omega, by omega, by omega⟩
  | case3 acc u =>
    cases h with
    | pair hu hv h =>
      cases h
      rw [combineSurrogates, chars_pair hu hv, List.reverse_cons]
      rfl
    | unit u h =>
      cases h
      simp [combineSurrogates, chars]
  | case4 acc =>
    cases h
    simp [combineSurrogates, chars]

/-! ## What is recorded is what is denoted -/

/-- A text whose reading stands for some units, whatever was read before. -/
def ReadsAs (l us : Text) : Prop :=
  ∃ xs, (∀ acc, decodeUnits (chars l) acc = acc.reverse ++ xs) ∧ Expands xs us

/-- A one-letter escape before a text is read as its unit before the text's. -/
theorem ReadsAs.escape {c : UInt16} (hc : IsEscape c) {l us : Text} (h : ReadsAs l us) :
    ReadsAs (0x5C :: c :: l) (escapeValue c :: us) := by
  obtain ⟨xs, hread, hexpands⟩ := h
  have hnot : ∀ u ∈ ([0x5C, c] : Text), ¬ IsHigh u.toNat := by
    rintro u hu
    simp only [List.mem_cons, List.not_mem_nil, or_false] at hu
    rcases hu with rfl | rfl
    · decide
    · rcases hc with rfl | rfl | rfl | rfl | rfl | rfl <;> decide
  refine ⟨_, fun acc => ?_, .unit _ hexpands⟩
  have hchars := chars_append hnot l
  simp only [List.cons_append, List.nil_append, List.map_cons, List.map_nil] at hchars
  rw [hchars]
  refine (decodeUnits_escape hc _ acc).trans ?_
  rw [hread]
  simp

/-- An escape of one unit before a text is read as that unit before the text's. -/
theorem ReadsAs.unitText {code : ℕ} (hcode : code ≤ 0xFFFF) {l us : Text} (h : ReadsAs l us) :
    ReadsAs (unitText code ++ l) (UInt16.ofNat code :: us) := by
  obtain ⟨xs, hread, hexpands⟩ := h
  refine ⟨_, fun acc => ?_, .unit (UInt16.ofNat code) hexpands⟩
  rw [chars_append (unitText_not_high hcode), decodeUnits_code hcode, hread,
    UInt16.toNat_ofNat', Nat.mod_eq_of_lt (by omega)]
  simp

/-- The escapes of a code point before a text are read as its units before the text's. -/
theorem ReadsAs.codeText {code : ℕ} (hcode : code ≤ 0x10FFFF) {l us : Text} (h : ReadsAs l us) :
    ReadsAs (codeText code ++ l) (utf16 code ++ us) := by
  rw [SourceLiteral.codeText, utf16]
  split
  · next hsmall => exact h.unitText hsmall
  · have hlow := (h.unitText (by omega : (code - 0x10000) % 0x400 + 0xDC00 ≤ 0xFFFF))
    rw [List.append_assoc]
    exact hlow.unitText (by omega)

/-- A unit outside every pair is read as it is. -/
theorem ReadsAs.raw {u : UInt16} (hu : u ≠ 0x5C) {l us : Text}
    (hnot : IsHigh u.toNat → ∀ v ∈ l.head?, ¬ IsLow v.toNat) (h : ReadsAs l us) :
    ReadsAs (u :: l) (u :: us) := by
  obtain ⟨xs, hread, hexpands⟩ := h
  have hne : u.toNat ≠ 0x5C := fun heq => hu (UInt16.toNat_inj.mp heq)
  refine ⟨_, fun acc => ?_, .unit u hexpands⟩
  rw [chars_cons hnot, decodeUnits_plain hne, hread, List.reverse_cons, List.append_assoc]
  rfl

/-- A pair is read as it is. -/
theorem ReadsAs.pair {u v : UInt16} (hu : IsHigh u.toNat) (hv : IsLow v.toNat) {l us : Text}
    (h : ReadsAs l us) : ReadsAs (u :: v :: l) (u :: v :: us) := by
  obtain ⟨xs, hread, hexpands⟩ := h
  have hne : joined u.toNat v.toNat ≠ 0x5C := by
    have hlt := lt_joined hu hv
    omega
  refine ⟨_, fun acc => ?_, .pair hu hv hexpands⟩
  rw [chars_pair hu hv, decodeUnits_plain hne, hread, List.reverse_cons, List.append_assoc]
  rfl

/-- An item is recorded as its unit, or as something that starts with a backslash. -/
theorem written_cases (style : Style) (i : Item) :
    (∃ u, i = .raw u ∧ i.written style = [u]) ∨ ∃ l, i.written style = 0x5C :: l := by
  cases i with
  | raw u =>
    rw [Item.written]
    split_ifs
    · exact Or.inr ⟨_, rfl⟩
    · exact Or.inr ⟨_, rfl⟩
    · exact Or.inr ⟨_, rfl⟩
    · exact Or.inr ⟨_, rfl⟩
    · exact Or.inl ⟨u, rfl, rfl⟩
  | escape c => exact Or.inr ⟨_, rfl⟩
  | unicode ds =>
    refine Or.inr ?_
    rw [Item.written, SourceLiteral.codeText]
    split
    · exact ⟨_, rfl⟩
    · exact ⟨_, rfl⟩

/-- An item that is recorded as an escape. -/
theorem readsAs_item {style : Style} {i : Item} (hi : i.Ok style)
    (hwritten : ∃ l, i.written style = 0x5C :: l) {l us : Text} (h : ReadsAs l us) :
    ReadsAs (i.written style ++ l) (i.units ++ us) := by
  cases i with
  | raw u =>
    have hu := hi.1
    rw [Item.written] at hwritten ⊢
    split_ifs at hwritten ⊢ with h1 h2 h3 h4
    · rw [h1.1]
      exact h.escape (c := 0x27) (by decide)
    · rw [h2.1]
      exact h.escape (c := 0x22) (by decide)
    · rw [h3.1]
      exact h.escape (c := 0x6E) (by decide)
    · rw [h4.1]
      exact h.escape (c := 0x72) (by decide)
    · obtain ⟨l', heq⟩ := hwritten
      exact absurd (List.cons.inj heq).1 hu
  | escape c => exact h.escape hi
  | unicode ds => exact h.codeText hi.2.2.2

/-- What a literal's items are written as is read as the units they stand for. -/
theorem written_readsAs {style : Style} {items : List Item} (h : ∀ i ∈ items, i.Ok style) :
    ReadsAs (written style items) (units items) := by
  induction hn : items.length using Nat.strong_induction_on generalizing items with
  | _ n ih =>
    rcases items with _ | ⟨i, items⟩
    · exact ⟨[], fun acc => by simp [written, chars, decodeUnits], .nil⟩
    have hi := h i (List.mem_cons_self ..)
    have hrest : ∀ j ∈ items, j.Ok style := fun j hj => h j (List.mem_cons_of_mem i hj)
    have hread := ih items.length (by rw [← hn]; exact Nat.lt_succ_self _) hrest rfl
    rw [written, List.flatMap_cons, units, List.flatMap_cons]
    rcases written_cases style i with ⟨u, rfl, hu⟩ | hescape
    · rw [hu]
      by_cases hpair : IsHigh u.toNat → ∀ v ∈ (written style items).head?, ¬ IsLow v.toNat
      · exact hread.raw hi.1 hpair
      -- the low half is the next item
      · push Not at hpair
        obtain ⟨hhigh, v, hv, hlow⟩ := hpair
        rcases items with _ | ⟨j, items⟩
        · cases hv
        rw [written, List.flatMap_cons] at hv
        rcases written_cases style j with ⟨w, rfl, hw⟩ | ⟨l, hl⟩
        · rw [hw] at hv
          obtain rfl := Option.some.inj hv
          have hrest' : ∀ j ∈ items, j.Ok style := fun j hj => hrest j (List.mem_cons_of_mem _ hj)
          have hread' := ih items.length (by
            rw [← hn, List.length_cons, List.length_cons]
            omega) hrest' rfl
          rw [List.flatMap_cons, List.flatMap_cons, hw]
          exact hread'.pair hhigh hlow
        · rw [hl] at hv
          obtain rfl := Option.some.inj hv
          exact absurd hlow (by decide)
    · exact readsAs_item hi hescape hread

/-- The text that is recorded is read back as the code points that the items denote. -/
theorem codePoints_written {style : Style} {items : List Item} (h : ∀ i ∈ items, i.Ok style) :
    codePoints (written style items) = (chars (units items)).map (fun c : ℕ => (c : ℤ)) := by
  obtain ⟨xs, hread, hexpands⟩ := written_readsAs h
  rw [codePoints, hread, List.reverse_nil, List.nil_append, combineSurrogates_eq hexpands]
  rfl

/-! ## Keys -/

/-- The units of some characters. -/
theorem flatMap_utf16_chars (us : Text) : (chars us).flatMap utf16 = us := by
  induction us using chars.induct with
  | case1 => rfl
  | case2 u =>
    have hu := u.toNat_lt
    rw [chars, List.flatMap_singleton, utf16, if_pos (by omega), UInt16.ofNat_toNat]
  | case3 u v rest hpair ih =>
    obtain ⟨hu, hv⟩ := hpair
    have hlt := lt_joined hu hv
    have hhigh := joined_eq hu hv
    obtain ⟨h1, h2⟩ := hu
    obtain ⟨h3, h4⟩ := hv
    have hdiv : (joined u.toNat v.toNat - 0x10000) / 0x400 + 0xD800 = u.toNat := by omega
    have hmod : (joined u.toNat v.toNat - 0x10000) % 0x400 + 0xDC00 = v.toNat := by omega
    rw [chars_pair ⟨h1, h2⟩ ⟨h3, h4⟩, List.flatMap_cons, ih, utf16, if_neg (by omega), hdiv, hmod,
      UInt16.ofNat_toNat, UInt16.ofNat_toNat]
    rfl
  | case4 u v rest hpair ih =>
    have hu := u.toNat_lt
    rw [chars, if_neg hpair, List.flatMap_cons, ih, utf16, if_pos (by omega), UInt16.ofNat_toNat]
    rfl

/-- A text is known by its characters. -/
theorem chars_injective : chars.Injective := by
  intro a b h
  rw [← flatMap_utf16_chars a, h, flatMap_utf16_chars]

theorem fromInt_natCast (n : ℕ) :
    fromInt (n : ℤ) = (Nat.toDigits 10 n).map fun c => UInt16.ofNat c.toNat := by
  have hstring : (toString (n : ℤ) : String) = n.repr := rfl
  rw [fromInt, ascii, hstring, Nat.toList_repr]

/-- A digit is its code. -/
theorem ofNat_toNat_digit {n : ℕ} {c : Char} (h : c ∈ Nat.toDigits 10 n) :
    0x30 ≤ c.toNat ∧ c.toNat ≤ 0x39 := by
  have hdigit := Nat.isDigit_of_mem_toDigits (by decide) (by decide) h
  rw [Char.isDigit, Bool.and_eq_true, decide_eq_true_eq, decide_eq_true_eq] at hdigit
  exact hdigit

theorem map_ofNat_toDigits (n : ℕ) :
    (fromInt (n : ℤ)).map (fun u => Char.ofNat u.toNat) = Nat.toDigits 10 n := by
  rw [fromInt_natCast, List.map_map]
  conv_rhs => rw [← List.map_id (Nat.toDigits 10 n)]
  refine List.map_congr_left fun c hc => ?_
  obtain ⟨-, hle⟩ := ofNat_toNat_digit hc
  rw [Function.comp_apply, UInt16.toNat_ofNat', Nat.mod_eq_of_lt (by omega), Char.ofNat_toNat]
  rfl

/-- A number is known by its decimals. -/
theorem fromInt_injective {m n : ℕ} (h : fromInt (m : ℤ) = fromInt (n : ℤ)) : m = n := by
  have hdigits : Nat.toDigits 10 m = Nat.toDigits 10 n := by
    rw [← map_ofNat_toDigits, h, map_ofNat_toDigits]
  rw [← Nat.ofDigitChars_ten_toDigits (n := m), hdigits, Nat.ofDigitChars_ten_toDigits]

/-- No comma stands in a number's decimals, so the key can be split at the commas. -/
theorem comma_notMem_fromInt (n : ℕ) : (0x2C : UInt16) ∉ fromInt (n : ℤ) := by
  intro hmem
  rw [fromInt_natCast, List.mem_map] at hmem
  obtain ⟨c, hc, heq⟩ := hmem
  obtain ⟨hlow, hle⟩ := ofNat_toNat_digit hc
  have hnat := congrArg UInt16.toNat heq
  rw [UInt16.toNat_ofNat', Nat.mod_eq_of_lt (by omega)] at hnat
  have hcomma : (0x2C : UInt16).toNat = 0x2C := rfl
  omega

theorem fromInt_ne_nil (n : ℕ) : fromInt (n : ℤ) ≠ [] := by
  rw [fromInt_natCast]
  intro hnil
  exact Nat.toDigits_ne_nil (List.map_eq_nil_iff.mp hnil)

/-- The numbers of a key. -/
def keyWords (cs : List ℕ) : List Text := cs.map fun c : ℕ => fromInt (c : ℤ)

/-- Split at the commas, a key gives its words back. -/
theorem keyWords_splitOn {cs : List ℕ} (h : cs ≠ []) :
    ([0x2C].intercalate (keyWords cs)).splitOn (0x2C : UInt16) = keyWords cs := by
  refine List.splitOn_intercalate _ (fun l hl => ?_) (by simpa [keyWords] using h)
  obtain ⟨c, -, rfl⟩ := List.mem_map.mp hl
  exact comma_notMem_fromInt c

theorem keyWords_injective : keyWords.Injective :=
  List.map_injective_iff.mpr fun _ _ => fromInt_injective

/-- No key but that of the empty literal is empty. -/
theorem intercalate_keyWords_ne_nil {cs : List ℕ} (h : cs ≠ []) :
    [0x2C].intercalate (keyWords cs) ≠ [] := by
  intro hnil
  have hsplit := keyWords_splitOn h
  rw [hnil, List.splitOn_nil] at hsplit
  have hword : [] ∈ keyWords cs := by
    rw [← hsplit]
    exact List.mem_cons_self ..
  obtain ⟨c, -, heq⟩ := List.mem_map.mp hword
  exact fromInt_ne_nil c heq

/-- Different characters give different keys. -/
theorem intercalate_keyWords_injective :
    Function.Injective fun cs : List ℕ => [(0x2C : UInt16)].intercalate (keyWords cs) := by
  intro a b h
  by_cases ha : a = []
  · by_contra hne
    have hb : b ≠ [] := fun hb => hne (ha.trans hb.symm)
    exact intercalate_keyWords_ne_nil hb (h.symm.trans (by rw [ha]; rfl))
  by_cases hb : b = []
  · exact absurd (h.trans (by rw [hb]; rfl)) (intercalate_keyWords_ne_nil ha)
  · refine keyWords_injective ?_
    rw [← keyWords_splitOn ha, ← keyWords_splitOn hb]
    exact congrArg (List.splitOn 0x2C) h

/-- The key of a literal's value is made of the characters it stands for. -/
theorem valueKey_written {style : Style} {items : List Item} (h : ∀ i ∈ items, i.Ok style) :
    valueKey (written style items) = [0x2C].intercalate (keyWords (chars (units items))) := by
  rw [valueKey, codePoints_written h, List.map_map]
  rfl

/-- Keys are equal exactly when the units that are denoted are. -/
theorem valueKey_eq_iff {style style' : Style} {items items' : List Item}
    (h : ∀ i ∈ items, i.Ok style) (h' : ∀ i ∈ items', i.Ok style') :
    valueKey (written style items) = valueKey (written style' items')
      ↔ units items = units items' := by
  rw [valueKey_written h, valueKey_written h']
  constructor
  · intro heq
    exact chars_injective (intercalate_keyWords_injective heq)
  · intro heq
    rw [heq]

/-! ## Texts of characters -/

/-- The units of a text of characters. -/
def ofChars (l : List Char) : Text := l.flatMap fun c => utf16 c.toNat

/-- The units of a code point are one character. -/
theorem chars_utf16_append {n : ℕ} (h : n < 0xD800 ∨ (0xDFFF < n ∧ n < 0x110000)) (l : Text) :
    chars (utf16 n ++ l) = n :: chars l := by
  rw [utf16]
  split
  · next hsmall =>
    have hnat : (UInt16.ofNat n).toNat = n := by
      rw [UInt16.toNat_ofNat', Nat.mod_eq_of_lt (by omega)]
    have hhigh : ¬ IsHigh (UInt16.ofNat n).toNat := by
      rw [hnat]
      rintro ⟨hge, hle⟩
      omega
    rw [List.cons_append, List.nil_append, chars_cons fun hh => absurd hh hhigh, hnat]
  · next hlarge =>
    obtain ⟨q, hq⟩ : ∃ q, q = (n - 0x10000) / 0x400 := ⟨_, rfl⟩
    obtain ⟨r, hr⟩ : ∃ r, r = (n - 0x10000) % 0x400 := ⟨_, rfl⟩
    have hhigh : (UInt16.ofNat (q + 0xD800)).toNat = q + 0xD800 := by
      rw [UInt16.toNat_ofNat', Nat.mod_eq_of_lt (by omega)]
    have hlow : (UInt16.ofNat (r + 0xDC00)).toNat = r + 0xDC00 := by
      rw [UInt16.toNat_ofNat', Nat.mod_eq_of_lt (by omega)]
    have hu : IsHigh (UInt16.ofNat (q + 0xD800)).toNat := by
      rw [hhigh]
      exact ⟨by omega, by omega⟩
    have hv : IsLow (UInt16.ofNat (r + 0xDC00)).toNat := by
      rw [hlow]
      exact ⟨by omega, by omega⟩
    have hjoined : joined (q + 0xD800) (r + 0xDC00) = n := by
      have heq : joined (q + 0xD800) (r + 0xDC00)
          = 0x10000 + (q + 0xD800 - 0xD800) * 0x400 + (r + 0xDC00 - 0xDC00) := rfl
      omega
    rw [← hq, ← hr, List.cons_append, List.cons_append, List.nil_append, chars_pair hu hv, hhigh,
      hlow, hjoined]

theorem chars_ofChars (l : List Char) : chars (ofChars l) = l.map Char.toNat := by
  induction l with
  | nil => rfl
  | cons c l ih =>
    rw [ofChars, List.flatMap_cons, List.map_cons, ← ih]
    exact chars_utf16_append c.valid _

/-- The value of hex digits is the same in both models of the literal. -/
theorem hexValue_map (l : List Char) : hexValue (l.map Char.toNat) = StringLiteral.hexValue l := by
  rw [hexValue, StringLiteral.hexValue, List.foldl_map]
  refine List.foldl_ext _ _ _ fun acc c _ => ?_
  dsimp only
  split_ifs <;> omega

/-- So is the reading of units. -/
theorem decodeUnits_map (l : List Char) (acc : List ℤ) :
    decodeUnits (l.map Char.toNat) acc = StringLiteral.decodeUnits l acc := by
  fun_induction StringLiteral.decodeUnits l acc
  case case1 => rfl
  case case2 a b c d rest ih =>
    rw [← ih, ← hexValue_map]
    rfl
  case case3 rest ih => exact ih
  case case4 rest ih => exact ih
  case case5 rest ih => exact ih
  case case6 acc escaped rest hu hn hr ht ih =>
    have hne : ∀ c : Char, (escaped = c → False) → escaped.toNat ≠ c.toNat :=
      fun c hc heq => hc (Char.toNat_inj.mp heq)
    have hcode : ∀ a b c d l, escaped.toNat = 0x75 → rest.map Char.toNat = a :: b :: c :: d :: l →
        False := by
      intro a b c d l heq hl
      obtain ⟨a, l₁, rfl, -, hl⟩ := List.map_eq_cons_iff.mp hl
      obtain ⟨b, l₂, rfl, -, hl⟩ := List.map_eq_cons_iff.mp hl
      obtain ⟨c, l₃, rfl, -, hl⟩ := List.map_eq_cons_iff.mp hl
      obtain ⟨d, l₄, rfl, -, -⟩ := List.map_eq_cons_iff.mp hl
      exact hu a b c d l₄ (Char.toNat_inj.mp heq) rfl
    rw [← ih]
    exact decodeUnits.eq_6 acc _ _ hcode (hne 'n' hn) (hne 'r' hr) (hne 't' ht)
  case case7 acc c rest hu hn hr ht hescaped ih =>
    rw [← ih, List.map_cons]
    cases rest with
    | nil => simp [decodeUnits]
    | cons d rest =>
      exact decodeUnits_plain (fun heq => hescaped d rest (Char.toNat_inj.mp heq) rfl) ..

/-- So is the joining of surrogates. -/
theorem combineSurrogates_same (acc units : List ℤ) :
    combineSurrogates acc units = StringLiteral.combineSurrogates acc units := by
  fun_induction StringLiteral.combineSurrogates acc units with
  | case1 acc hi lo rest hpair ih =>
    rw [combineSurrogates, if_pos hpair]
    exact ih
  | case2 acc hi lo rest hpair ih =>
    rw [combineSurrogates, if_neg hpair]
    exact ih
  | case3 acc u => rfl
  | case4 acc => rfl

/-- A text of characters is read as the texts of patterns are. -/
theorem codePoints_utf16 (s : String) :
    codePoints (ofChars s.toList) = StringLiteral.codePoints s := by
  rw [codePoints, chars_ofChars, decodeUnits_map, combineSurrogates_same, StringLiteral.codePoints]

end SourceLiteral

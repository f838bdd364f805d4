import EcoCompiler.ParseNumber

/-! # The grammar of number literals

    * `Literal`, `Ends` — the four kinds of literals, and what may follow each of them;
    * `value` — what an integer literal stands for;
    * `fromLiteral_decimal`, `fromLiteral_hexadecimal` — its value in two words is its value
      modulo 2^64. -/

namespace ParseNumber

open Primitives DataInt64

/-! ## Literals -/

/-- A decimal digit. -/
def IsDigit (u : UInt16) : Prop := 48 ≤ u.toNat ∧ u.toNat ≤ 57

/-- A hexadecimal digit, of either case. -/
def IsHexDigit (u : UInt16) : Prop :=
  IsDigit u ∨ (97 ≤ u.toNat ∧ u.toNat ≤ 102) ∨ (65 ≤ u.toNat ∧ u.toNat ≤ 70)

instance (u : UInt16) : Decidable (IsDigit u) := inferInstanceAs (Decidable (_ ∧ _))

instance (u : UInt16) : Decidable (IsHexDigit u) := inferInstanceAs (Decidable (_ ∨ _))

/-- One digit or more. -/
def Digits (l : Text) : Prop := l ≠ [] ∧ ∀ u ∈ l, IsDigit u

/-- A decimal integer without a leading zero. -/
def IsDecimal (l : Text) : Prop := l = [48] ∨ (Digits l ∧ l.head? ≠ some 48)

/-- Digits on both sides of a dot. -/
def IsFraction (l : Text) : Prop := ∃ i f, IsDecimal i ∧ Digits f ∧ l = i ++ 46 :: f

/-- An `e` or `E` and digits, with a sign between them or not. -/
def IsExponent (l : Text) : Prop :=
  ∃ e s ds, (e = 101 ∨ e = 69) ∧ (s = [] ∨ s = [43] ∨ s = [45]) ∧ Digits ds ∧ l = e :: (s ++ ds)

/-- What an exponent may follow: not a plain `0`. -/
def IsMantissa (l : Text) : Prop := (IsDecimal l ∧ l ≠ [48]) ∨ IsFraction l

/-- The four forms of a number literal. -/
inductive Kind where
  | decimal
  | hexadecimal
  | fraction
  | exponent
  deriving DecidableEq

/-- The literals of each kind. -/
def Literal : Kind → Text → Prop
  | .decimal, l => IsDecimal l
  | .hexadecimal, l => ∃ ds, ds ≠ [] ∧ (∀ u ∈ ds, IsHexDigit u) ∧ l = 48 :: 120 :: ds
  | .fraction, l => IsFraction l
  | .exponent, l => ∃ m e, IsMantissa m ∧ IsExponent e ∧ l = m ++ e

/-- A code point that may continue a name. -/
def IsInner (isAlpha : ℕ → Bool) (code : ℕ) : Prop :=
  (0x61 ≤ code ∧ code ≤ 0x7A) ∨ (0x41 ≤ code ∧ code ≤ 0x5A) ∨ (0x30 ≤ code ∧ code ≤ 0x39) ∨
    code = 0x5F ∨ (0x80 ≤ code ∧ isAlpha code = true)

/-- The text starts with a character that may continue a name. -/
def StartsInner (isAlpha : ℕ → Bool) (t : Text) : Prop :=
  ∃ code rest, uncons t = some (code, rest) ∧ IsInner isAlpha code

/-- What may follow a literal: a decimal integer is not followed by a dot, an exponent by
    everything but a digit, and the others, as an integer, not by a character that may continue
    a name. -/
def Ends (isAlpha : ℕ → Bool) : Kind → Text → Prop
  | .decimal, t => ¬ StartsInner isAlpha t ∧ t.head? ≠ some 46
  | .hexadecimal, t => ¬ StartsInner isAlpha t
  | .fraction, t => ¬ StartsInner isAlpha t
  | .exponent, t => ∀ u, t.head? = some u → ¬ IsDigit u

/-- The value of a digit, decimal or hexadecimal. -/
def digitValue (u : UInt16) : ℕ :=
  if u.toNat ≤ 57 then u.toNat - 48 else if u.toNat ≤ 70 then u.toNat - 55 else u.toNat - 87

/-- The value of digits in a base. -/
def valueFrom (base n : ℕ) (ds : Text) : ℕ := ds.foldl (fun n u => base * n + digitValue u) n

/-- What an integer literal stands for. -/
def value : Kind → Text → ℕ
  | .hexadecimal, l => valueFrom 16 0 (l.drop 2)
  | _, l => valueFrom 10 0 l

/-! ## The value in two words -/

/-- The number that two words stand for. -/
def ofWords (words : ℕ × ℕ) : ℕ := words.1 * 2 ^ 32 + words.2

theorem mulAdd_spec {m : ℕ} (hm : m = 10 ∨ m = 16) (d : ℕ) {words : ℕ × ℕ}
    (h : words.1 < 2 ^ 32 ∧ words.2 < 2 ^ 32) :
    (mulAdd m d words).1 < 2 ^ 32 ∧ (mulAdd m d words).2 < 2 ^ 32 ∧
      ofWords (mulAdd m d words) = (m * ofWords words + d) % 2 ^ 64 := by
  obtain ⟨hi, lo⟩ := words
  have hlow : ∀ n : ℕ, n &&& 0xFFFF = n % 2 ^ 16 := fun n => Nat.and_two_pow_sub_one_eq_mod n 16
  have hword : ∀ n : ℕ, n &&& 0xFFFFFFFF = n % 2 ^ 32 := fun n =>
    Nat.and_two_pow_sub_one_eq_mod n 32
  rw [mulAdd, ofWords, ofWords]
  simp only [hlow, hword, Nat.shiftRight_eq_div_pow, two32]
  dsimp only at h
  rcases hm with rfl | rfl <;> omega

/-- Digit by digit, the words stand for the value modulo 2^64. -/
theorem foldl_mulAdd {m : ℕ} (hm : m = 10 ∨ m = 16) (ds : Text) {words : ℕ × ℕ} {n : ℕ}
    (h : words.1 < 2 ^ 32 ∧ words.2 < 2 ^ 32) (hn : ofWords words = n % 2 ^ 64) :
    ofWords (ds.foldl (fun acc u => mulAdd m (digitValue u) acc) words)
      = valueFrom m n ds % 2 ^ 64 := by
  induction ds generalizing words n with
  | nil => exact hn
  | cons u ds ih =>
    obtain ⟨hhi, hlo, hvalue⟩ := mulAdd_spec hm (digitValue u) h
    refine ih ⟨hhi, hlo⟩ ?_
    rw [hvalue, hn, Nat.add_mod, Nat.mul_mod_mod, ← Nat.add_mod]

theorem chars_of_ascii {t : Text} (h : ∀ u ∈ t, u.toNat < 0xD800) :
    chars t = t.map fun u => u.toNat := by
  induction t with
  | nil => rfl
  | cons u t ih =>
    have hu := h u (List.mem_cons_self ..)
    have ht := ih fun v hv => h v (List.mem_cons_of_mem u hv)
    cases t with
    | nil => rfl
    | cons v t =>
      have hnot : ¬ (IsHigh u.toNat ∧ IsLow v.toNat) := fun hh => absurd hh.1.1 hu.not_ge
      rw [chars, if_neg hnot, ht]
      rfl

theorem IsDigit.isHexDigit {u : UInt16} (h : IsDigit u) : IsHexDigit u := Or.inl h

theorem IsHexDigit.lt {u : UInt16} (h : IsHexDigit u) : u.toNat < 0xD800 := by
  rcases h with h | h | h <;> have hle := h.2 <;> omega

theorem sub_eq_digitValue {u : UInt16} (h : IsDigit u) : u.toNat - 48 = digitValue u := by
  rw [digitValue, if_pos h.2]

/-- The value of a text of digits in its base, from the words. -/
theorem fromWords_foldl {m : ℕ} (hm : m = 10 ∨ m = 16) (ds : Text) :
    fromWords (ds.foldl (fun acc u => mulAdd m (digitValue u) acc) (0, 0)).1
      (ds.foldl (fun acc u => mulAdd m (digitValue u) acc) (0, 0)).2
      = some (wrap (valueFrom m 0 ds)) := by
  have h := @foldl_mulAdd m hm ds (0, 0) 0 (by decide) rfl
  rw [ofWords] at h
  rw [fromWords, two32, h, wrap, wrap, Option.some.injEq]
  push_cast
  exact Int.emod_bmod ..

/-- The text of an integer literal, read again, has its value modulo 2^64. -/
theorem fromLiteral_decimal {l : Text} (h : IsDecimal l) :
    fromLiteral l = some (wrap (value .decimal l)) := by
  have hdigits : ∀ u ∈ l, IsDigit u := by
    rcases h with rfl | h
    · intro u hu
      rw [List.mem_singleton.mp hu]
      decide
    · exact h.1.2
  have hprefix : ¬ ascii "0x" <+: l := by
    intro hpre
    have hx : (120 : UInt16) ∈ l := hpre.subset (by decide)
    exact absurd (hdigits 120 hx) (by decide)
  have hfold : (chars l).foldl (fun acc c => mulAdd 10 (c - 48) acc) (0, 0)
      = l.foldl (fun acc u => mulAdd 10 (digitValue u) acc) (0, 0) := by
    rw [chars_of_ascii fun u hu => (hdigits u hu).isHexDigit.lt, List.foldl_map]
    exact List.foldl_ext _ _ _ fun acc u hu => by rw [sub_eq_digitValue (hdigits u hu)]
  rw [fromLiteral, if_neg hprefix, hfold]
  exact fromWords_foldl (Or.inl rfl) l

theorem fromLiteral_hexadecimal {l : Text} (h : Literal .hexadecimal l) :
    fromLiteral l = some (wrap (value .hexadecimal l)) := by
  obtain ⟨ds, -, hds, rfl⟩ := h
  have hprefix : ascii "0x" <+: 48 :: 120 :: ds := ⟨ds, rfl⟩
  have hfold : (chars ds).foldl (fun acc c => mulAdd 16 (hexValue c) acc) (0, 0)
      = ds.foldl (fun acc u => mulAdd 16 (digitValue u) acc) (0, 0) := by
    rw [chars_of_ascii fun u hu => (hds u hu).lt, List.foldl_map]
    rfl
  have hdrop : List.drop 2 (48 :: 120 :: ds) = ds := rfl
  rw [fromLiteral, if_pos hprefix, hdrop, hfold]
  exact fromWords_foldl (Or.inr rfl) ds

end ParseNumber

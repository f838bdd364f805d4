import EcoCompiler.HostInt

/-! # The text of an integer

    `String.fromInt` on the two hosts.  JavaScript writes the fewest digits that name the double,
    and an exponent from `10 ^ 21` on.

    * `decimal` — all digits of a number; `readOnto` — the number they name on a host;
    * `shortest`, `jsText` — the text of a whole double;
    * `fromInt_eq`, `readOnto_decimal` — up to `Host.limit` the text of a number that the host holds
      is its digits, and they name it. -/

namespace Host

/-- The unit of a digit. -/
def digit (d : ℕ) : UInt16 := UInt16.ofNat (0x30 + d)

/-- The digits of a number, without leading zeros. -/
def decimal (n : ℕ) : List UInt16 :=
  if n < 10 then [digit n] else decimal (n / 10) ++ [digit (n % 10)]
termination_by n
decreasing_by omega

/-- The number with the fewest digits whose double is `x`, and how many zeros follow it; of two of
    them the nearer one. -/
def shortest (x : ℕ) : ℕ → ℕ × ℕ
  | 0 => (x, 0)
  | e + 1 =>
    let low := x / 10 ^ (e + 1)
    let names : ℕ → Bool := fun v => Double.round ((v * 10 ^ (e + 1) : ℕ) : ℚ) = x
    if names low ∧ (¬ names (low + 1) ∨ 2 * (x % 10 ^ (e + 1)) ≤ 10 ^ (e + 1)) then (low, e + 1)
    else if names (low + 1) then (low + 1, e + 1)
    else shortest x e

/-- `Number::toString` of a whole double. -/
def jsText (x : ℕ) : List UInt16 :=
  let (s, e) := shortest x (decimal x).length
  if s * 10 ^ e < 10 ^ 21 then decimal (s * 10 ^ e)
  else
    match decimal s with
    | [] => []
    | d :: ds =>
      (d :: if ds = [] then [] else 0x2E :: ds) ++ 0x65 :: 0x2B :: decimal (ds.length + e)

/-- `String.fromInt`. -/
def fromInt (h : Host) (n : ℤ) : List UInt16 :=
  let text := match h with
    | native => decimal n.natAbs
    | javascript => jsText n.natAbs
  if n < 0 then 0x2D :: text else text

/-- The number that digits name, read one after another onto `n`. -/
def readOnto (h : Host) (n : ℤ) (digits : List UInt16) : ℤ :=
  digits.foldl (fun n u => h.add (h.mul 10 n) (u.toNat - 0x30)) n

/-- Up to here reading a digit never rounds twice. -/
def limit : Host → ℕ
  | native => 2 ^ 63 - 1
  | javascript => 2 ^ 54 - 1

/-! ## Digits -/

theorem toNat_digit {d : ℕ} (h : d < 10) : (digit d).toNat = 0x30 + d := by
  rw [digit, UInt16.toNat_ofNat']
  omega

theorem decimal_of_lt {n : ℕ} (h : n < 10) : decimal n = [digit n] := by
  rw [decimal, if_pos h]

theorem decimal_of_ge {n : ℕ} (h : 10 ≤ n) :
    decimal n = decimal (n / 10) ++ [digit (n % 10)] := by
  rw [decimal, if_neg (by omega)]

/-- All units are digits, and only zero starts with one. -/
theorem decimal_cases (n : ℕ) :
    ∃ u ds, decimal n = u :: ds ∧ (0x30 ≤ u.toNat ∧ u.toNat ≤ 0x39) ∧
      (∀ v ∈ ds, 0x30 ≤ v.toNat ∧ v.toNat ≤ 0x39) ∧ (n = 0 ∧ ds = [] ∨ 0x30 < u.toNat) := by
  induction n using Nat.strong_induction_on with
  | _ n ih =>
    by_cases hn : n < 10
    · have hu := toNat_digit hn
      refine ⟨digit n, [], decimal_of_lt hn, by omega, by simp, ?_⟩
      by_cases h0 : n = 0
      · exact Or.inl ⟨h0, rfl⟩
      · exact Or.inr (by omega)
    · obtain ⟨u, ds, heq, hu, hds, hlead⟩ := ih (n / 10) (by omega)
      have hlast := toNat_digit (Nat.mod_lt n (by norm_num : 0 < 10))
      refine ⟨u, ds ++ [digit (n % 10)], by rw [decimal_of_ge (by omega), heq]; rfl, hu, ?_, ?_⟩
      · intro v hv
        rcases List.mem_append.mp hv with hv | hv
        · exact hds v hv
        · rw [List.mem_singleton.mp hv]
          omega
      · rcases hlead with ⟨h0, -⟩ | hlead
        · omega
        · exact Or.inr hlead

theorem isDouble_even {n : ℕ} (h : n < 2 ^ 54) (heven : n % 2 = 0) : Double.IsDouble (n : ℚ) := by
  have hhalf : |((n / 2 : ℕ) : ℤ)| < 2 ^ 53 := by
    rw [abs_of_nonneg (by omega)]
    omega
  have hdouble := Double.isDouble_mul_zpow hhalf 1
  have hn : (((n / 2 : ℕ) : ℤ) : ℚ) * 2 ^ (1 : ℤ) = n := by
    rw [zpow_one]
    exact_mod_cast (by omega : n / 2 * 2 = n)
  rwa [hn] at hdouble

/-- Tens up to the limit are held. -/
theorem holds_tens (h : Host) {m : ℕ} (hm : 10 * m ≤ h.limit) : h.Holds (10 * m : ℕ) := by
  cases h with
  | native =>
    have hle : 10 * m ≤ 2 ^ 63 - 1 := hm
    exact ⟨by omega, by omega⟩
  | javascript =>
    have hle : 10 * m ≤ 2 ^ 54 - 1 := hm
    have hdouble := isDouble_even (n := 10 * m) (by omega) (by omega)
    show Double.IsDouble (((10 * m : ℕ) : ℤ) : ℚ)
    rwa [Int.cast_natCast]

/-- So is what is left without the last digit. -/
theorem holds_div (h : Host) {n : ℕ} (hn : n ≤ h.limit) : h.Holds (n / 10 : ℕ) := by
  cases h with
  | native =>
    have hle : n ≤ 2 ^ 63 - 1 := hn
    exact ⟨by omega, by omega⟩
  | javascript =>
    have hle : n ≤ 2 ^ 54 - 1 := hn
    exact holds_of_lt javascript (by omega) (by omega)

theorem readOnto_append (h : Host) (n : ℤ) (ds es : List UInt16) :
    h.readOnto n (ds ++ es) = h.readOnto (h.readOnto n ds) es := List.foldl_append

/-- The digits of a number are read as that number. -/
theorem readOnto_decimal (h : Host) {n : ℕ} (hn : h.Holds n) (hle : n ≤ h.limit) :
    h.readOnto 0 (decimal n) = n := by
  induction n using Nat.strong_induction_on with
  | _ n ih =>
    have hdiv := Nat.div_add_mod n 10
    have hdigit : (((digit (n % 10)).toNat : ℤ) - 0x30) = (n % 10 : ℕ) := by
      rw [toNat_digit (Nat.mod_lt n (by norm_num))]
      push_cast
      ring
    have hmul := keep_of_holds (holds_tens h (m := n / 10) (by omega))
    have hlast : h.add (h.mul 10 (n / 10 : ℕ)) ((digit (n % 10)).toNat - 0x30) = n := by
      rw [hdigit, mul, add]
      rw [Nat.cast_mul] at hmul
      have hsum : ((10 : ℕ) : ℤ) * (n / 10 : ℕ) + (n % 10 : ℕ) = n := by exact_mod_cast hdiv
      rw [show (10 : ℤ) = ((10 : ℕ) : ℤ) from rfl, hmul, hsum]
      exact keep_of_holds hn
    by_cases hlt : n < 10
    · have hzero : n / 10 = 0 := by omega
      have hmod : n % 10 = n := by omega
      rw [hzero, hmod] at hlast
      rw [decimal_of_lt hlt, readOnto, List.foldl_cons, List.foldl_nil]
      exact hlast
    · rw [decimal_of_ge (by omega), readOnto_append, ih (n / 10) (by omega) (holds_div h hle)
        (by omega), readOnto, List.foldl_cons, List.foldl_nil]
      exact hlast

/-! ## JavaScript -/

/-- An even number is the double of no other number below `2 ^ 54`. -/
theorem round_eq_iff {n v : ℕ} (h : n < 2 ^ 54) (hv : v % 2 = 0) :
    Double.round (v : ℚ) = n ↔ v = n := by
  by_cases hlt : v < 2 ^ 54
  · rw [show Double.round (v : ℚ) = v from isDouble_even hlt hv, Nat.cast_inj]
  · have hle : (2 : ℚ) ^ (54 : ℤ) ≤ v := by exact_mod_cast not_lt.mp hlt
    have hround := Double.le_round hle
    constructor
    · intro heq
      rw [heq] at hround
      have hbad : 2 ^ 54 ≤ n := by exact_mod_cast hround
      omega
    · intro heq
      omega

theorem shortest_value {n : ℕ} (h : n < 2 ^ 54) (e : ℕ) :
    (shortest n e).1 * 10 ^ (shortest n e).2 = n := by
  have heven : ∀ v e : ℕ, v * 10 ^ (e + 1) % 2 = 0 := by
    intro v e
    rw [pow_succ, ← mul_assoc]
    omega
  induction e with
  | zero => rw [shortest, pow_zero, Nat.mul_one]
  | succ e ih =>
    rw [shortest]
    dsimp only
    split_ifs with hlow hhigh
    · exact (round_eq_iff h (heven _ e)).mp (by simpa using hlow.1)
    · exact (round_eq_iff h (heven _ e)).mp (by simpa using hhigh)
    · exact ih

theorem jsText_eq {n : ℕ} (h : n < 2 ^ 54) : jsText n = decimal n := by
  rw [jsText]
  dsimp only
  rw [shortest_value h, if_pos (by omega)]

/-- Up to the limit the text of a number is its digits. -/
theorem fromInt_eq (h : Host) {n : ℕ} (hle : n ≤ h.limit) : h.fromInt n = decimal n := by
  have hneg : ¬ (n : ℤ) < 0 := by omega
  rw [fromInt.eq_def]
  dsimp only
  rw [if_neg hneg, Int.natAbs_natCast]
  cases h with
  | native => rfl
  | javascript =>
    have hlt : n ≤ 2 ^ 54 - 1 := hle
    exact jsText_eq (by omega)

end Host

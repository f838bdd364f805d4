import Mathlib

/-! # Doubles, independent of any program

    Rounding of a rational to a 53-bit significand, half to even, with the exponent
    range left unbounded.

    * `isDouble_iff`: the fixed points of rounding are the numbers `m * 2 ^ k` with
      `|m| < 2 ^ 53`;
    * `IsDouble.mul_zpow`: scaling by a power of two is exact;
    * `isDouble_intCast`: every integer below `2 ^ 53` is a double. -/

namespace Double

/-- Rounding to an integer, half to even. -/
def roundEven (q : ℚ) : ℤ :=
  if Int.fract q < 1 / 2 then ⌊q⌋
  else if 1 / 2 < Int.fract q then ⌊q⌋ + 1
  else if ⌊q⌋ % 2 = 0 then ⌊q⌋
  else ⌊q⌋ + 1

/-- The exponent at which the significand of `q` has 53 bits. -/
def exponent (q : ℚ) : ℤ := Int.log 2 |q| - 52

/-- The double nearest to `q`. -/
def round (q : ℚ) : ℚ := roundEven (q / 2 ^ exponent q) * 2 ^ exponent q

/-- A double holds `q` exactly. -/
def IsDouble (q : ℚ) : Prop := round q = q

instance (q : ℚ) : Decidable (IsDouble q) := inferInstanceAs (Decidable (_ = _))

@[simp] theorem roundEven_intCast (n : ℤ) : roundEven (n : ℚ) = n := by
  simp [roundEven]

private theorem two_zpow_pos (k : ℤ) : (0 : ℚ) < 2 ^ k := zpow_pos (by norm_num) k

/-- A significand of at most 53 bits survives rounding. -/
theorem isDouble_mul_zpow {m : ℤ} (hm : |m| < 2 ^ 53) (k : ℤ) :
    IsDouble (m * 2 ^ k) := by
  by_cases h0 : m = 0
  · rw [h0]
    simp [IsDouble, round, roundEven]
  have hq : |(m : ℚ) * 2 ^ k| < 2 ^ (k + 53) := by
    rw [abs_mul, abs_of_pos (two_zpow_pos k), add_comm, zpow_add₀ (by norm_num)]
    refine mul_lt_mul_of_pos_right ?_ (two_zpow_pos k)
    exact_mod_cast hm
  have hpos : 0 < |(m : ℚ) * 2 ^ k| :=
    abs_pos.mpr (mul_ne_zero (by exact_mod_cast h0) (two_zpow_pos k).ne')
  have hlog : Int.log 2 |(m : ℚ) * 2 ^ k| < k + 53 :=
    (Int.lt_zpow_iff_log_lt (by norm_num) hpos).mp (by exact_mod_cast hq)
  -- below the exponent of the significand nothing is left to round
  obtain ⟨d, hd⟩ : ∃ d : ℕ, k = exponent ((m : ℚ) * 2 ^ k) + d := by
    refine ⟨(k - exponent ((m : ℚ) * 2 ^ k)).toNat, ?_⟩
    rw [exponent]
    omega
  have hint : (m : ℚ) * 2 ^ k / 2 ^ exponent ((m : ℚ) * 2 ^ k) = ((m * 2 ^ d : ℤ) : ℚ) := by
    rw [div_eq_iff (two_zpow_pos _).ne']
    conv_lhs => rw [hd, zpow_add₀ (by norm_num), zpow_natCast]
    push_cast
    ring
  rw [IsDouble, round, hint, roundEven_intCast, ← hint,
    div_mul_cancel₀ _ (two_zpow_pos _).ne']

/-- What a double holds has a significand of at most 53 bits. -/
theorem IsDouble.significand {q : ℚ} (h : IsDouble q) :
    ∃ m k : ℤ, |m| < 2 ^ 53 ∧ q = m * 2 ^ k := by
  refine ⟨roundEven (q / 2 ^ exponent q), exponent q, ?_, h.symm⟩
  have hq : |q| < 2 ^ (Int.log 2 |q| + 1) := by
    exact_mod_cast Int.lt_zpow_succ_log_self (b := 2) (by norm_num) |q|
  have hm : (roundEven (q / 2 ^ exponent q) : ℚ) = q / 2 ^ exponent q :=
    (eq_div_iff (two_zpow_pos _).ne').mpr h
  have hlt : |(roundEven (q / 2 ^ exponent q) : ℚ)| < 2 ^ 53 := by
    rw [hm, abs_div, abs_of_pos (two_zpow_pos (exponent q)), div_lt_iff₀ (two_zpow_pos _)]
    calc |q| < 2 ^ (Int.log 2 |q| + 1) := hq
      _ = (2 : ℚ) ^ (53 : ℤ) * 2 ^ exponent q := by
        rw [← zpow_add₀ (by norm_num), exponent]
        congr 1
        omega
      _ = 2 ^ 53 * 2 ^ exponent q := by norm_num
  exact_mod_cast hlt

/-- The doubles. -/
theorem isDouble_iff {q : ℚ} :
    IsDouble q ↔ ∃ m k : ℤ, |m| < 2 ^ 53 ∧ q = m * 2 ^ k := by
  constructor
  · intro h
    exact h.significand
  · rintro ⟨m, k, hm, rfl⟩
    exact isDouble_mul_zpow hm k

/-- Scaling by a power of two changes the exponent only. -/
theorem IsDouble.mul_zpow {q : ℚ} (h : IsDouble q) (j : ℤ) : IsDouble (q * 2 ^ j) := by
  obtain ⟨m, k, hm, rfl⟩ := h.significand
  rw [mul_assoc, ← zpow_add₀ (by norm_num)]
  exact isDouble_mul_zpow hm (k + j)

/-- Every integer below `2 ^ 53` is a double. -/
theorem isDouble_intCast {n : ℤ} (h : |n| < 2 ^ 53) : IsDouble (n : ℚ) := by
  simpa using isDouble_mul_zpow h 0

/-! ## What rounding changes -/

/-- Rounding to an integer goes down, or up to the next one. -/
theorem roundEven_cases (q : ℚ) :
    roundEven q = ⌊q⌋ ∨ (roundEven q = ⌊q⌋ + 1 ∧ 1 / 2 ≤ Int.fract q) := by
  rw [roundEven]
  split_ifs with h₁ h₂ h₃
  · exact Or.inl rfl
  · exact Or.inr ⟨rfl, h₂.le⟩
  · exact Or.inl rfl
  · exact Or.inr ⟨rfl, not_lt.mp h₁⟩

/-- Rounding to an integer does not pass an integer. -/
theorem abs_roundEven_le {q : ℚ} {n : ℤ} (h : |q| ≤ n) : |roundEven q| ≤ n := by
  obtain ⟨hlow, hhigh⟩ := abs_le.mp h
  have hfloor : -n ≤ ⌊q⌋ := Int.le_floor.mpr (by push_cast; exact hlow)
  have hfloor' : ⌊q⌋ ≤ n := Int.floor_le_iff.mpr (by linarith)
  rw [abs_le]
  rcases roundEven_cases q with h' | ⟨h', hfract⟩
  · rw [h']
    exact ⟨hfloor, hfloor'⟩
  · have hlt : (⌊q⌋ : ℚ) < n := by
      have hsplit := Int.floor_add_fract q
      linarith
    have hlt' : ⌊q⌋ < n := by exact_mod_cast hlt
    omega

/-- Rounding does not pass a power of two. -/
theorem abs_round_le {q : ℚ} {k : ℤ} (h : |q| ≤ 2 ^ k) : |round q| ≤ 2 ^ k := by
  by_cases h0 : q = 0
  · rw [h0]
    simp [round, roundEven, (two_zpow_pos k).le]
  have hpos : 0 < |q| := abs_pos.mpr h0
  have hlog : Int.log 2 |q| < k + 1 := by
    refine (Int.lt_zpow_iff_log_lt (by norm_num) hpos).mp ?_
    refine h.trans_lt ?_
    exact_mod_cast zpow_lt_zpow_right₀ (by norm_num : (1 : ℚ) < 2) (lt_add_one k)
  obtain ⟨d, hd⟩ : ∃ d : ℕ, k = exponent q + d := by
    refine ⟨(k - exponent q).toNat, ?_⟩
    rw [exponent]
    omega
  have hscale : (2 : ℚ) ^ k = ((2 ^ d : ℤ) : ℚ) * 2 ^ exponent q := by
    rw [hd, zpow_add₀ (by norm_num), zpow_natCast]
    push_cast
    ring
  have hquot : |q / 2 ^ exponent q| ≤ ((2 ^ d : ℤ) : ℚ) := by
    rw [abs_div, abs_of_pos (two_zpow_pos (exponent q)), div_le_iff₀ (two_zpow_pos _), ← hscale]
    exact h
  rw [round, abs_mul, abs_of_pos (two_zpow_pos (exponent q)), hscale]
  refine mul_le_mul_of_nonneg_right ?_ (two_zpow_pos _).le
  exact_mod_cast abs_roundEven_le hquot

/-- Rounding to an integer does not fall below an integer. -/
theorem le_roundEven {q : ℚ} {n : ℤ} (h : (n : ℚ) ≤ q) : n ≤ roundEven q := by
  have hfloor : n ≤ ⌊q⌋ := Int.le_floor.mpr h
  rcases roundEven_cases q with h' | ⟨h', -⟩ <;> omega

/-- Rounding does not fall below a power of two. -/
theorem le_round {q : ℚ} {k : ℤ} (h : (2 : ℚ) ^ k ≤ q) : (2 : ℚ) ^ k ≤ round q := by
  have hpos : 0 < q := (two_zpow_pos k).trans_le h
  have hlog : k ≤ Int.log 2 |q| := by
    refine (Int.zpow_le_iff_le_log (by norm_num) (abs_pos.mpr hpos.ne')).mp ?_
    rw [abs_of_pos hpos]
    exact_mod_cast h
  have hself : (2 : ℚ) ^ Int.log 2 |q| ≤ q := by
    have hle := Int.zpow_log_le_self (b := 2) (by norm_num) (abs_pos.mpr hpos.ne')
    rw [abs_of_pos hpos] at hle ⊢
    exact_mod_cast hle
  -- the significand has all its 53 bits
  have hquot : ((2 ^ 52 : ℤ) : ℚ) ≤ q / 2 ^ exponent q := by
    rw [le_div_iff₀ (two_zpow_pos _)]
    refine le_trans (le_of_eq ?_) hself
    have hcast : ((2 ^ 52 : ℤ) : ℚ) = 2 ^ (52 : ℤ) := by norm_num
    rw [hcast, ← zpow_add₀ (by norm_num), exponent]
    congr 1
    omega
  calc (2 : ℚ) ^ k ≤ 2 ^ Int.log 2 |q| := zpow_le_zpow_right₀ (by norm_num) hlog
    _ = ((2 ^ 52 : ℤ) : ℚ) * 2 ^ exponent q := by
      have hcast : ((2 ^ 52 : ℤ) : ℚ) = 2 ^ (52 : ℤ) := by norm_num
      rw [hcast, ← zpow_add₀ (by norm_num), exponent]
      congr 1
      omega
    _ ≤ roundEven (q / 2 ^ exponent q) * 2 ^ exponent q := by
      refine mul_le_mul_of_nonneg_right ?_ (two_zpow_pos _).le
      exact_mod_cast le_roundEven hquot

/-- What is rounded is a double. -/
theorem isDouble_round (q : ℚ) : IsDouble (round q) := by
  have hq : |q| < 2 ^ (Int.log 2 |q| + 1) := by
    exact_mod_cast Int.lt_zpow_succ_log_self (b := 2) (by norm_num) |q|
  have hquot : |q / 2 ^ exponent q| ≤ ((2 ^ 53 : ℤ) : ℚ) := by
    rw [abs_div, abs_of_pos (two_zpow_pos (exponent q)), div_le_iff₀ (two_zpow_pos _)]
    refine hq.le.trans_eq ?_
    have hcast : ((2 ^ 53 : ℤ) : ℚ) = 2 ^ (53 : ℤ) := by norm_num
    rw [hcast, ← zpow_add₀ (by norm_num), exponent]
    congr 1
    omega
  rcases (abs_roundEven_le hquot).lt_or_eq with hlt | heq
  · exact isDouble_mul_zpow hlt _
  -- a significand of 54 bits is a power of two
  · obtain ⟨m, hm, hround⟩ : ∃ m : ℤ, |m| < 2 ^ 53 ∧
        roundEven (q / 2 ^ exponent q) = m * 2 := by
      rcases abs_eq (by norm_num) |>.mp heq with h | h
      · exact ⟨2 ^ 52, by norm_num, by rw [h]; norm_num⟩
      · exact ⟨-2 ^ 52, by norm_num, by rw [h]; norm_num⟩
    have hshift : round q = m * 2 ^ (1 + exponent q) := by
      rw [round, hround, zpow_add₀ (by norm_num)]
      push_cast
      ring
    rw [hshift]
    exact isDouble_mul_zpow hm _

/-- An integer is rounded to an integer. -/
theorem floor_round_intCast (n : ℤ) : ((⌊round (n : ℚ)⌋ : ℤ) : ℚ) = round (n : ℚ) := by
  by_cases h : |n| < 2 ^ 53
  · have hexact : round (n : ℚ) = n := isDouble_intCast h
    rw [hexact, Int.floor_intCast]
  · have hpos : 0 < |(n : ℚ)| := by
      rw [abs_pos]
      rintro hn
      have hzero : n = 0 := by exact_mod_cast hn
      exact h (by rw [hzero]; norm_num)
    have hlog : 53 ≤ Int.log 2 |(n : ℚ)| := by
      rw [← Int.zpow_le_iff_le_log (by norm_num) hpos]
      have hcast : ((2 : ℕ) : ℚ) ^ (53 : ℤ) = ((2 ^ 53 : ℤ) : ℚ) := by norm_num
      rw [hcast]
      exact_mod_cast not_lt.mp h
    obtain ⟨d, hd⟩ : ∃ d : ℕ, exponent (n : ℚ) = d := by
      refine ⟨(exponent (n : ℚ)).toNat, ?_⟩
      rw [exponent]
      omega
    have hint : round (n : ℚ)
        = ((roundEven ((n : ℚ) / 2 ^ exponent (n : ℚ)) * 2 ^ d : ℤ) : ℚ) := by
      rw [round]
      push_cast
      rw [hd, zpow_natCast]
    rw [hint, Int.floor_intCast]

end Double

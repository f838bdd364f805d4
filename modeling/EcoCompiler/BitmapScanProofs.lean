import EcoCompiler.BitmapScan

/-! # The scan finds the first free cell

    * `divStride_eq` — the reciprocal divides exactly below `2 ^ 26`;
    * `phaseMask_iff`, `nextPhase_eq` — a word's mask holds the cell starts in that word;
    * `scanWords_spec`, `scanCells_spec` — the two loops, from one invariant each;
    * `nextFreeCell_least` — the least free cell, or the number of cells. -/

namespace BitmapScan

/-! ## The bits of a bitmap -/

/-- Bit `b` of the bitmap. -/
def bitAt (bits : Bitmap) (b : ℕ) : Bool := (bits.getD (b / 8) 0).getLsbD (b % 8)

theorem loadBytes_spec {bits : Bitmap} {i n : ℕ} (hn : n ≤ 8) (h : i + n ≤ bits.size) :
    ∃ v, loadBytes bits i n = some v ∧
      ∀ j, j < 64 → v.getLsbD j = (decide (j < 8 * n) && bitAt bits (8 * i + j)) := by
  induction n generalizing i with
  | zero => exact ⟨0, rfl, fun j _ => by simp⟩
  | succ n ih =>
      obtain ⟨v, hv, spec⟩ := ih (i := i + 1) (by omega) (by omega)
      have hi : i < bits.size := by omega
      refine ⟨bits[i].setWidth 64 ||| (v <<< 8), ?_, fun j hj => ?_⟩
      · rw [loadBytes, hv, Array.getElem?_eq_getElem hi]
      · have hget : bits.getD i 0 = bits[i] := by
          rw [Array.getD_eq_getD_getElem?, Array.getElem?_eq_getElem hi]
          rfl
        rw [BitVec.getLsbD_or, BitVec.getLsbD_setWidth, BitVec.getLsbD_shiftLeft]
        by_cases hlow : j < 8
        · have hdiv : (8 * i + j) / 8 = i := by omega
          have hmod : (8 * i + j) % 8 = j := by omega
          have hn8 : j < 8 * (n + 1) := by omega
          rw [bitAt, hdiv, hmod, hget]
          simp [hj, hlow, hn8]
        · have hhigh : (bits[i]).getLsbD j = false := BitVec.getLsbD_of_ge _ _ (by omega)
          rw [spec (j - 8) (by omega), show 8 * (i + 1) + (j - 8) = 8 * i + j by omega]
          have hiff : (j - 8 < 8 * n) = (j < 8 * (n + 1)) := by
            apply propext
            omega
          simp [hj, hlow, hhigh, hiff]

/-- A word inside the array holds its 64 bits. -/
theorem loadWord_spec {bits : Bitmap} {w : ℕ} (h : 8 * (w + 1) ≤ bits.size) :
    ∃ v, loadWord bits w = some v ∧
      ∀ j, j < 64 → v.getLsbD j = bitAt bits (64 * w + j) := by
  have fits : w * 8 + 8 ≤ bits.size := by omega
  obtain ⟨v, hv, spec⟩ := loadBytes_spec (le_refl 8) fits
  refine ⟨v, hv, fun j hj => ?_⟩
  rw [spec j hj, show 8 * (w * 8) + j = 64 * w + j by ring]
  simp [hj]

theorem testBit_spec {bits : Bitmap} {b : ℕ} (h : b < 8 * bits.size) :
    testBit bits b = some (bitAt bits b) := by
  have h3 : b >>> 3 = b / 8 := Nat.shiftRight_eq_div_pow b 3
  have h7 : b &&& 7 = b % 8 := Nat.and_two_pow_sub_one_eq_mod b 3
  have hb : b / 8 < bits.size := by omega
  have hget : bits.getD (b / 8) 0 = bits[b / 8] := by
    rw [Array.getD_eq_getD_getElem?, Array.getElem?_eq_getElem hb]
    rfl
  have hbit : ∀ x : BitVec 8, ∀ k, k < 8 →
      decide ((x >>> k) &&& 1#8 ≠ 0#8) = x.getLsbD k := by
    decide +kernel
  rw [testBit, h3, h7, Array.getElem?_eq_getElem hb, Option.map_some, bitAt, hget,
    hbit _ _ (Nat.mod_lt _ (by decide))]

/-- The lowest set bit of a word. -/
theorem ctzll_spec {x : BitVec 64} (h : x ≠ 0) :
    ctzll x < 64 ∧ x.getLsbD (ctzll x) = true ∧ ∀ j, j < ctzll x → x.getLsbD j = false := by
  obtain ⟨i, hi, hset⟩ : ∃ i, i < 64 ∧ x.getLsbD i = true := by
    by_contra hno
    push Not at hno
    refine h (BitVec.eq_of_getLsbD_eq fun i hi => ?_)
    simpa using hno i hi
  cases hf : (List.range 64).find? fun j => x.getLsbD j with
  | none =>
      have := List.find?_eq_none.mp hf i (List.mem_range.mpr hi)
      exact absurd hset this
  | some k =>
      have hk : ctzll x = k := by rw [ctzll, hf]; rfl
      rw [hk]
      obtain ⟨hkset, hk64, hbefore⟩ := List.find?_range_eq_some.mp hf
      refine ⟨List.mem_range.mp hk64, hkset, fun j hj => ?_⟩
      simpa using hbefore j hj

/-! ## The tables -/

theorem inv_eq {m : ℕ} (h1 : 1 ≤ m) (h2 : m < 64) :
    kStride.inv.getD m 0 = (2 ^ 32 + m - 1) / m := by
  have hne : m ≠ 0 := by omega
  simp [kStride, makeStrideTables, h2, hne]

theorem step_eq {m : ℕ} (h1 : 1 ≤ m) (h2 : m < 64) : kStride.step.getD m 0 = 64 % m := by
  have hne : m ≠ 0 := by omega
  simp [kStride, makeStrideTables, h2, hne]

theorem pattern_eq {m : ℕ} (h1 : 1 ≤ m) (h2 : m < 64) :
    kStride.pattern.getD m 0 = strideMask m := by
  have hne : m ≠ 0 := by omega
  simp [kStride, makeStrideTables, h2, hne]

/-- The reciprocal divides exactly: what it adds to the quotient stays below one part. -/
theorem divStride_eq {g m : ℕ} (h1 : 1 ≤ m) (h2 : m < 64) (hg : g < 2 ^ 26) :
    divStride g m = g / m := by
  rw [divStride, inv_eq h1 h2]
  -- the reciprocal is rounded up by `e`, which is less than one part in `m`
  obtain ⟨e, he, hinv⟩ : ∃ e, e < m ∧ (2 ^ 32 + m - 1) / m * m = 2 ^ 32 + e := by
    have hmod := Nat.div_add_mod (2 ^ 32 + m - 1) m
    have hlt := Nat.mod_lt (2 ^ 32 + m - 1) (show m > 0 by omega)
    refine ⟨m - 1 - (2 ^ 32 + m - 1) % m, by omega, ?_⟩
    rw [mul_comm]
    omega
  have hle : (2 ^ 32 + m - 1) / m ≤ 2 ^ 32 := by
    exact Nat.div_le_of_le_mul (by omega)
  -- the product does not wrap
  have hsmall : g * ((2 ^ 32 + m - 1) / m) < 2 ^ 64 := by
    calc g * ((2 ^ 32 + m - 1) / m) ≤ g * 2 ^ 32 := Nat.mul_le_mul_left g hle
      _ < 2 ^ 64 := by omega
  have hquot : g * ((2 ^ 32 + m - 1) / m) / 2 ^ 32 = g / m := by
    have hge : g * e < 2 ^ 26 * 2 ^ 6 := Nat.mul_lt_mul'' hg (by omega)
    have hdm := Nat.div_add_mod g m
    have hlt := Nat.mod_lt g (show m > 0 by omega)
    generalize hq : (2 ^ 32 + m - 1) / m = q at hinv hle hsmall ⊢
    generalize g / m = d at hdm ⊢
    generalize g % m = s at hdm hlt
    have hprod : g * q * m = g * 2 ^ 32 + g * e := by
      rw [mul_assoc, hinv, mul_add]
    rw [Nat.div_eq_iff (by decide)]
    constructor
    · have : d * 2 ^ 32 * m ≤ g * q * m := by
        rw [hprod, ← hdm]
        nlinarith
      exact Nat.le_of_mul_le_mul_right this (by omega)
    · have : g * q * m < (d + 1) * 2 ^ 32 * m := by
        rw [hprod]
        have : g + 1 ≤ (d + 1) * m := by
          rw [add_mul, one_mul, mul_comm d m]
          omega
        nlinarith
      have := Nat.lt_of_mul_lt_mul_right this
      omega
  rw [Nat.mod_eq_of_lt hsmall, hquot]
  refine Nat.mod_eq_of_lt ?_
  have := Nat.div_le_self g m
  omega

/-! ## The masks -/

theorem strideMaskLoop_bit {m b : ℕ} (hm : 1 ≤ m) (v : BitVec 64) {j : ℕ} (hj : j < 64) :
    (strideMaskLoop m b v).getLsbD j = true
      ↔ v.getLsbD j = true ∨ (b ≤ j ∧ m ∣ j - b) := by
  -- by the turns of the loop: this one sets bit `b`
  induction b, v using strideMaskLoop.induct (m := m) with
  | case1 b v h ih =>
      have hone : (1#64 <<< b).getLsbD j = true ↔ j = b := by
        rw [BitVec.getLsbD_shiftLeft]
        simp only [BitVec.getLsbD_one, Bool.and_eq_true, decide_eq_true_eq, Bool.not_eq_true',
          decide_eq_false_iff_not]
        omega
      rw [strideMaskLoop, dif_pos h, ih, BitVec.getLsbD_or, Bool.or_eq_true, hone, or_assoc]
      refine or_congr_right ?_
      constructor
      · rintro (rfl | ⟨hle, hdvd⟩)
        · exact ⟨le_rfl, by simp⟩
        · refine ⟨by omega, ?_⟩
          rw [show j - b = j - (b + m) + m by omega]
          exact Dvd.dvd.add hdvd dvd_rfl
      · rintro ⟨hle, hdvd⟩
        by_cases heq : j = b
        · exact Or.inl heq
        · have hge : m ≤ j - b := Nat.le_of_dvd (by omega) hdvd
          refine Or.inr ⟨by omega, ?_⟩
          rw [show j - (b + m) = j - b - m by omega]
          exact Nat.dvd_sub hdvd dvd_rfl
  | case2 b v h =>
      rw [strideMaskLoop, dif_neg h]
      have hb : 64 ≤ b := by
        by_contra hlt
        exact h ⟨by omega, hm⟩
      constructor
      · exact Or.inl
      · rintro (hv | ⟨hle, -⟩)
        · exact hv
        · omega

theorem strideMask_bit {m : ℕ} (hm : 1 ≤ m) {j : ℕ} (hj : j < 64) :
    (strideMask m).getLsbD j = true ↔ m ∣ j := by
  rw [strideMask, strideMaskLoop_bit hm 0 hj]
  simp

/-- The mask of a word whose phase is its position modulo the stride holds exactly the cell
    starts in that word. -/
theorem phaseMask_iff {m w : ℕ} (h1 : 1 ≤ m) (h2 : m < 64) {j : ℕ} (hj : j < 64) :
    (phaseMask m (64 * w % m)).getLsbD j = true ↔ m ∣ 64 * w + j := by
  have hr := Nat.mod_lt (64 * w) (show m > 0 by omega)
  have hmod : m ∣ 64 * w + j ↔ m ∣ 64 * w % m + j := by
    rw [Nat.dvd_iff_mod_eq_zero, Nat.dvd_iff_mod_eq_zero, Nat.mod_add_mod]
  rw [hmod, phaseMask, pattern_eq h1 h2, BitVec.getLsbD_shiftLeft]
  generalize 64 * w % m = r at hr ⊢
  by_cases hr0 : r = 0
  · subst hr0
    have hbit := strideMask_bit h1 hj
    simp only [ne_eq, not_true_eq_false, if_false, Nat.sub_zero, zero_add]
    simpa [hj] using hbit
  · rw [if_pos hr0]
    by_cases hlow : j < m - r
    · have hnot : ¬ m ∣ r + j := fun h => by
        have := Nat.le_of_dvd (by omega) h
        omega
      simp [hlow, hnot]
    · have hbit := strideMask_bit h1 (show j - (m - r) < 64 by omega)
      have hdvd : m ∣ r + j ↔ m ∣ j - (m - r) := by
        rw [show r + j = j - (m - r) + m by omega]
        exact (Nat.dvd_add_iff_left dvd_rfl).symm
      simp [hj, hlow, hbit, hdvd]

theorem nextPhase_eq {m w : ℕ} (h1 : 1 ≤ m) (h2 : m < 64) :
    nextPhase m (64 * w % m) = 64 * (w + 1) % m := by
  have hr := Nat.mod_lt (64 * w) (show m > 0 by omega)
  have hs := Nat.mod_lt 64 (show m > 0 by omega)
  rw [nextPhase, step_eq h1 h2, mul_add, mul_one, Nat.add_mod (64 * w) 64 m]
  generalize 64 * w % m = r at hr ⊢
  generalize 64 % m = s at hs ⊢
  by_cases h : m ≤ r + s
  · rw [if_pos h, Nat.mod_eq_sub_mod h, Nat.mod_eq_of_lt (by omega)]
  · rw [if_neg h, Nat.mod_eq_of_lt (by omega)]

/-! ## The scans -/

/-- `k` is the least cell below `num` that starts at bit `lo` or later and is free, or it is
    `num` and there is none. -/
def Least (bits : Bitmap) (m lo num k : ℕ) : Prop :=
  (∀ i, lo ≤ i * m → i < k → bitAt bits (i * m) = true) ∧
    ((k < num ∧ lo ≤ k * m ∧ bitAt bits (k * m) = false) ∨ k = num)

/-- Starts that are all taken can be skipped. -/
theorem Least.skip {bits : Bitmap} {m lo lo' num k : ℕ} (h : Least bits m lo' num k)
    (le : lo ≤ lo') (taken : ∀ i, lo ≤ i * m → i * m < lo' → bitAt bits (i * m) = true) :
    Least bits m lo num k := by
  obtain ⟨before, found⟩ := h
  refine ⟨fun i hi hk => ?_, ?_⟩
  · by_cases hlt : i * m < lo'
    · exact taken i hi hlt
    · exact before i (by omega) hk
  · rcases found with ⟨hk, hlo, hfree⟩ | hk
    · exact Or.inl ⟨hk, by omega, hfree⟩
    · exact Or.inr hk

theorem scanCells_spec {bits : Bitmap} {m num : ℕ} (hm : 1 ≤ m) (h : num * m ≤ 8 * bits.size)
    (k : ℕ) (hk : k ≤ num) : ∃ r, scanCells bits m num k = some r ∧ Least bits m (k * m) num r := by
  induction hd : num - k generalizing k with
  | zero =>
      refine ⟨num, ?_, ?_, Or.inr rfl⟩
      · rw [scanCells, if_neg (by omega)]
      · intro i hi hlt
        have := Nat.le_of_mul_le_mul_right hi hm
        omega
  | succ d ih =>
      have hlt : k < num := by omega
      have hbit : k * m < 8 * bits.size := by nlinarith
      rw [scanCells, if_pos hlt, testBit_spec hbit]
      cases hb : bitAt bits (k * m) with
      | false =>
          refine ⟨k, rfl, ?_, Or.inl ⟨hlt, le_rfl, hb⟩⟩
          intro i hi hik
          have := Nat.le_of_mul_le_mul_right hi hm
          omega
      | true =>
          obtain ⟨r, hr, least⟩ := ih (k + 1) (by omega) (by omega)
          refine ⟨r, hr, least.skip (Nat.mul_le_mul_right m (by omega)) fun i hi hlt' => ?_⟩
          have h1 := Nat.le_of_mul_le_mul_right hi hm
          have h2 := Nat.lt_of_mul_lt_mul_right hlt'
          rw [show i = k by omega]
          exact hb

/-- One word and what follows it: its mask holds the starts at `lo` or later in it, and
    `later` is what the next words find. -/
theorem scanWords_step {bits : Bitmap} {m num last_w w lo : ℕ} {mask : BitVec 64}
    (h1 : 1 ≤ m) (h2 : m < 64) (size : 8 * (w + 1) ≤ bits.size) (small : 64 * (w + 1) ≤ 2 ^ 26)
    (bounds : 64 * w ≤ lo ∧ lo ≤ 64 * (w + 1))
    (hmask : ∀ j, j < 64 → (mask.getLsbD j = true ↔ m ∣ 64 * w + j ∧ lo ≤ 64 * w + j))
    (last : last_w ≤ w → num * m < 64 * (w + 1) + m)
    (later : w < last_w → ∃ k,
      scanWords bits m num last_w (w + 1) (64 * (w + 1) % m)
        (phaseMask m (64 * (w + 1) % m)) = some k ∧ Least bits m (64 * (w + 1)) num k) :
    ∃ k, scanWords bits m num last_w w (64 * w % m) mask = some k ∧ Least bits m lo num k := by
  obtain ⟨word, hword, hbits⟩ := loadWord_spec size
  have hfree : ∀ j, j < 64 → ((~~~word &&& mask).getLsbD j = true
      ↔ bitAt bits (64 * w + j) = false ∧ m ∣ 64 * w + j ∧ lo ≤ 64 * w + j) := by
    intro j hj
    rw [BitVec.getLsbD_and, BitVec.getLsbD_not, hbits j hj, Bool.and_eq_true, hmask j hj]
    simp [hj]
  -- the starts of this word below a position where the free bits begin are taken
  have htaken : ∀ e, (∀ j, j < e → j < 64 → (~~~word &&& mask).getLsbD j = false) → e ≤ 64 →
      ∀ i, lo ≤ i * m → i * m < 64 * w + e → bitAt bits (i * m) = true := by
    intro e hclear he i hi hlt
    have hj : i * m - 64 * w < 64 := by omega
    have heq : 64 * w + (i * m - 64 * w) = i * m := by omega
    have hc := hclear _ (by omega) hj
    by_contra hb
    have := (hfree _ hj).mpr ⟨by rw [heq]; simpa using hb, by rw [heq]; exact dvd_mul_left m i,
      by omega⟩
    rw [hc] at this
    cases this
  rw [scanWords, hword]
  by_cases hzero : ~~~word &&& mask = 0
  · have hclear : ∀ j, j < 64 → j < 64 → (~~~word &&& mask).getLsbD j = false := by
      intro j _ _
      rw [hzero]
      exact BitVec.getLsbD_zero
    have hall := htaken 64 hclear le_rfl
    simp only [hzero, ne_eq, not_true_eq_false, if_false]
    by_cases hw : last_w ≤ w
    · rw [if_pos hw]
      refine ⟨num, rfl, fun i hi hlt => ?_, Or.inr rfl⟩
      have hle : (i + 1) * m ≤ num * m := Nat.mul_le_mul_right m hlt
      have := last hw
      rw [add_mul, one_mul] at hle
      exact hall i hi (by omega)
    · rw [if_neg hw, nextPhase_eq h1 h2]
      obtain ⟨k, hk, least⟩ := later (by omega)
      exact ⟨k, hk, least.skip bounds.2 fun i hi hlt => hall i hi (by omega)⟩
  · obtain ⟨hlt, hset, hbefore⟩ := ctzll_spec hzero
    obtain ⟨hclearbit, ⟨k, hk⟩, hge⟩ := (hfree _ hlt).mp hset
    have hall := htaken (ctzll (~~~word &&& mask)) (fun j hj _ => hbefore j hj) hlt.le
    have hg : (w <<< 6) + ctzll (~~~word &&& mask) = m * k := by
      rw [Nat.shiftLeft_eq, ← hk]
      omega
    have hdiv : divStride (m * k) m = k := by
      rw [divStride_eq h1 h2 (by omega)]
      exact Nat.mul_div_cancel_left k h1
    simp only [ne_eq, hzero, not_false_eq_true, if_true, hg, hdiv]
    rw [hk] at hall hclearbit hge
    rw [mul_comm] at hall hclearbit hge
    by_cases hnum : k < num
    · rw [if_pos hnum]
      refine ⟨k, rfl, fun i hi hik => ?_, Or.inl ⟨hnum, hge, hclearbit⟩⟩
      exact hall i hi (Nat.mul_lt_mul_of_pos_right hik h1)
    · rw [if_neg hnum]
      refine ⟨num, rfl, fun i hi hik => ?_, Or.inr rfl⟩
      exact hall i hi (Nat.mul_lt_mul_of_pos_right (by omega) h1)

/-- The words from `w` on: the first mask holds the starts at `lo` or later in its word. -/
theorem scanWords_spec {bits : Bitmap} {m num last_w w lo : ℕ} {mask : BitVec 64}
    (h1 : 1 ≤ m) (h2 : m < 64) (size : 8 * (last_w + 1) ≤ bits.size)
    (small : 64 * (last_w + 1) ≤ 2 ^ 26) (last : num * m < 64 * (last_w + 1) + m)
    (hw : w ≤ last_w) (bounds : 64 * w ≤ lo ∧ lo ≤ 64 * (w + 1))
    (hmask : ∀ j, j < 64 → (mask.getLsbD j = true ↔ m ∣ 64 * w + j ∧ lo ≤ 64 * w + j)) :
    ∃ k, scanWords bits m num last_w w (64 * w % m) mask = some k ∧ Least bits m lo num k := by
  induction hd : last_w - w generalizing w lo mask with
  | zero =>
      refine scanWords_step h1 h2 (by omega) (by omega) bounds hmask ?_ fun h => by omega
      intro h
      rwa [show w = last_w by omega]
  | succ d ih =>
      refine scanWords_step h1 h2 (by omega) (by omega) bounds hmask (fun h => by omega) ?_
      intro hlt
      refine ih hlt ⟨le_rfl, by omega⟩ (fun j hj => ?_) (by omega)
      rw [phaseMask_iff h1 h2 hj]
      exact ⟨fun h => ⟨h, by omega⟩, fun h => h.1⟩

/-- The first word's mask leaves out the bits before the first cell asked for. -/
theorem firstMask_iff {m g0 : ℕ} (h1 : 1 ≤ m) (h2 : m < 64) {j : ℕ} (hj : j < 64) :
    (phaseMask m (64 * (g0 / 64) % m) &&& (BitVec.allOnes 64 <<< (g0 % 64))).getLsbD j = true
      ↔ m ∣ 64 * (g0 / 64) + j ∧ g0 ≤ 64 * (g0 / 64) + j := by
  have hcut : (BitVec.allOnes 64 <<< (g0 % 64)).getLsbD j = true ↔ g0 ≤ 64 * (g0 / 64) + j := by
    rw [BitVec.getLsbD_shiftLeft, BitVec.getLsbD_allOnes]
    simp only [Bool.and_eq_true, decide_eq_true_eq, Bool.not_eq_true', decide_eq_false_iff_not]
    omega
  rw [BitVec.getLsbD_and, Bool.and_eq_true, phaseMask_iff h1 h2 hj, hcut]

/-- `nextFreeCell` returns the least free cell from `from_cell` on, or `num_cells`, and reads
    only bytes of the bitmap; for strides below 64 its division is exact on every bit of the
    bitmap, and each word's mask holds exactly the cell starts in that word. -/
theorem nextFreeCell_least (bits : Bitmap) (m from_cell num_cells : ℕ) (stride : 1 ≤ m)
    (whole : 8 ∣ bits.size) (inside : num_cells * m ≤ 8 * bits.size)
    (block : m < 64 → 8 * bits.size ≤ 2 ^ 26) :
    (∃ k, nextFreeCell bits m from_cell num_cells = some k ∧
      (∀ i, from_cell ≤ i → i < k → i < num_cells → bitAt bits (i * m) = true) ∧
      ((from_cell ≤ k ∧ k < num_cells ∧ bitAt bits (k * m) = false) ∨ k = num_cells)) ∧
    (m < 64 → (∀ g, g < 8 * bits.size → divStride g m = g / m) ∧
      ∀ w, nextPhase m (64 * w % m) = 64 * (w + 1) % m ∧
        ∀ j, j < 64 → ((phaseMask m (64 * w % m)).getLsbD j = true ↔ m ∣ 64 * w + j)) := by
  refine ⟨?_, fun h2 => ⟨fun g hg => divStride_eq stride h2 (lt_of_lt_of_le hg (block h2)),
    fun w => ⟨nextPhase_eq stride h2, fun j hj => phaseMask_iff stride h2 hj⟩⟩⟩
  rw [nextFreeCell]
  by_cases hnone : num_cells ≤ from_cell
  · rw [if_pos hnone]
    exact ⟨num_cells, rfl, fun i h1 h2 _ => by omega, Or.inr rfl⟩
  rw [if_neg hnone]
  -- both loops find the least cell that starts at the first one's bit or later
  obtain ⟨k, hk, before, found⟩ : ∃ k, (if 64 ≤ m then scanCells bits m num_cells from_cell
      else scanWords bits m num_cells (((num_cells - 1) * m) >>> 6) ((from_cell * m) >>> 6)
        ((from_cell * m) >>> 6 * 64 % m) (phaseMask m ((from_cell * m) >>> 6 * 64 % m)
          &&& (BitVec.allOnes 64 <<< ((from_cell * m) &&& 63)))) = some k ∧
      Least bits m (from_cell * m) num_cells k := by
    by_cases hlarge : 64 ≤ m
    · rw [if_pos hlarge]
      exact scanCells_spec stride inside from_cell (by omega)
    · have h2 : m < 64 := by omega
      have h6 : ∀ x : ℕ, x >>> 6 = x / 64 := fun x => Nat.shiftRight_eq_div_pow x 6
      have h63 : ∀ x : ℕ, x &&& 63 = x % 64 := fun x => Nat.and_two_pow_sub_one_eq_mod x 6
      have hle : from_cell * m ≤ (num_cells - 1) * m := Nat.mul_le_mul_right m (by omega)
      have hlast : num_cells * m = (num_cells - 1) * m + m := by
        rw [← Nat.succ_mul, show (num_cells - 1).succ = num_cells by omega]
      have hblock := block h2
      obtain ⟨q, hq⟩ := whole
      rw [if_neg hlarge, h6, h6, h63, mul_comm (from_cell * m / 64) 64]
      exact scanWords_spec stride h2 (by omega) (by omega) (by omega) (by omega)
        ⟨by omega, by omega⟩ fun j hj => firstMask_iff stride h2 hj
  refine ⟨k, hk, fun i hi hik _ => before i (Nat.mul_le_mul_right m hi) hik, ?_⟩
  rcases found with ⟨hlt, hlo, hfree⟩ | rfl
  · exact Or.inl ⟨Nat.le_of_mul_le_mul_right hlo stride, hlt, hfree⟩
  · exact Or.inr rfl

/-- Two words: the first is full, and so is the first cell of three granules in the second. -/
def twoWords : Bitmap := #[255, 255, 255, 255, 255, 255, 255, 255, 4, 0, 0, 0, 0, 0, 0, 0]

/-- The scan goes on into the second word and passes the cell taken there. -/
theorem nextFreeCell_least_three :
    nextFreeCell twoWords 3 1 42 = some 23 ∧
      ∃ k, nextFreeCell twoWords 3 1 42 = some k ∧
        (∀ i, 1 ≤ i → i < k → i < 42 → bitAt twoWords (i * 3) = true) ∧
        ((1 ≤ k ∧ k < 42 ∧ bitAt twoWords (k * 3) = false) ∨ k = 42) :=
  ⟨by decide +kernel,
    (nextFreeCell_least twoWords 3 1 42 (by decide) (by decide) (by decide) (by decide)).1⟩

end BitmapScan

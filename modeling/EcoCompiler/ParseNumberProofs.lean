import EcoCompiler.ParseNumberSpec

/-! # Number literals are read exactly

    * `chompInt_skip`, `chompFractionHelp_skip`, … — each loop goes over a run of digits;
    * `outcome_of_literal` — a literal with what may follow it is scanned to its end;
    * `outcome_classified` — whatever is scanned is such a literal, or fails where some literal
      could still have gone on;
    * `number_reads` — what the parser does with every text. -/

namespace ParseNumber

open Primitives DataInt64

/-! ## Reading a unit -/

/-- The text from an index to the end. -/
def At (src : Text) (pos end_ : ℕ) (t : Text) : Prop :=
  end_ ≤ src.length ∧ (src.drop pos).take (end_ - pos) = t

section

variable {src t l : Text} {pos end_ : ℕ} {u : UInt16}

/-- Nothing is left at the end only. -/
theorem At.le_of_nil (h : At src pos end_ []) : end_ ≤ pos := by
  have hlen := congrArg List.length h.2
  have hle := h.1
  rw [List.length_take, List.length_drop, List.length_nil] at hlen
  omega

theorem At.lt_of_cons (h : At src pos end_ (u :: t)) : pos < end_ := by
  by_contra hle
  have heq := h.2
  rw [Nat.sub_eq_zero_of_le (by omega), List.take_zero] at heq
  cases heq

/-- Past the first part of the text the rest is left. -/
theorem At.append (h : At src pos end_ (l ++ t)) : At src (pos + l.length) end_ t := by
  refine ⟨h.1, ?_⟩
  have hdrop : (src.drop (pos + l.length)).take (end_ - (pos + l.length))
      = ((src.drop pos).take (end_ - pos)).drop l.length := by
    rw [List.drop_take, List.drop_drop, Nat.sub_sub]
  rw [hdrop, h.2, List.drop_left]

theorem At.tail (h : At src pos end_ (u :: t)) : At src (pos + 1) end_ t :=
  At.append (l := [u]) h

theorem At.length (h : At src pos end_ t) (le : pos ≤ end_) : t.length = end_ - pos := by
  rw [← h.2, List.length_take, List.length_drop]
  have hle := h.1
  omega

/-- The text of what was read. -/
theorem At.take (h : At src pos end_ (l ++ t)) : (src.drop pos).take l.length = l := by
  have hle : l.length ≤ end_ - pos := by
    have hlen := congrArg List.length h.2
    rw [List.length_take, List.length_append] at hlen
    omega
  have htake := congrArg (List.take l.length) h.2
  rw [List.take_take, Nat.min_eq_left hle, List.take_left] at htake
  exact htake

/-- The first unit and what follows it, also after the end. -/
theorem At.drop_eq (h : At src pos end_ (u :: t)) : ∃ t', src.drop pos = u :: t' ∧
    t = t'.take (end_ - (pos + 1)) := by
  have heq := h.2
  cases hd : src.drop pos with
  | nil =>
    rw [hd, List.take_nil] at heq
    cases heq
  | cons u' t' =>
    have hlt := h.lt_of_cons
    have hk : end_ - pos = end_ - (pos + 1) + 1 := by omega
    rw [hd, hk, List.take_succ_cons] at heq
    obtain ⟨rfl, rfl⟩ := List.cons.inj heq
    exact ⟨t', rfl, rfl⟩

/-- The character at an index: its unit, or a pair that starts with it. -/
theorem charAtPos_cases (h : At src pos end_ (u :: t)) : charAtPos pos src = u.toNat ∨
    (IsHigh u.toNat ∧ 0x10000 ≤ charAtPos pos src) := by
  obtain ⟨t', hd, -⟩ := h.drop_eq
  rw [charAtPos, hd]
  cases t' with
  | nil => exact Or.inl rfl
  | cons v t'' =>
    rw [uncons]
    split_ifs with hpair
    · exact Or.inr ⟨hpair.1, Nat.le_add_right_of_le (Nat.le_add_right _ _)⟩
    · exact Or.inl rfl

/-- A character before the surrogates is its unit. -/
theorem charAtPos_eq_iff (h : At src pos end_ (u :: t)) {code : ℕ} (hcode : code < 0xD800) :
    charAtPos pos src = code ↔ u.toNat = code := by
  rcases charAtPos_cases h with heq | ⟨hhigh, hle⟩
  · rw [heq]
  · have hge := hhigh.1
    exact iff_of_false (by omega) (by omega)

/-- The test for a digit, on the unit at the cursor. -/
theorem isDecimalDigit_iff (h : At src pos end_ (u :: t)) :
    isDecimalDigit (charAtPos pos src) = true ↔ IsDigit u := by
  rw [isDecimalDigit, Bool.and_eq_true, decide_eq_true_eq, decide_eq_true_eq, IsDigit]
  rcases charAtPos_cases h with heq | ⟨hhigh, hle⟩
  · rw [heq]
  · have hge := hhigh.1
    exact iff_of_false (by omega) (by omega)

/-- At a hex digit the code read is the unit itself. -/
theorem charAtPos_of_digit (h : At src pos end_ (u :: t)) (hu : IsHexDigit u) :
    charAtPos pos src = u.toNat :=
  (charAtPos_eq_iff h hu.lt).mpr rfl

/-- The digit of a hexadecimal character, and none of another one. -/
theorem hexDigitValue_of (h : At src pos end_ (u :: t)) :
    (IsHexDigit u → hexDigitValue (charAtPos pos src) = digitValue u) ∧
    (¬ IsHexDigit u → hexDigitValue (charAtPos pos src) < 0) := by
  constructor
  · intro hu
    rw [charAtPos_of_digit h hu, hexDigitValue, digitValue]
    rcases hu with hu | hu | hu <;> obtain ⟨hlo, hhi⟩ := hu <;> split_ifs <;> omega
  · intro hu
    rw [IsHexDigit, IsDigit] at hu
    rw [hexDigitValue]
    rcases charAtPos_cases h with heq | ⟨hhigh, hle⟩
    · rw [heq]
      split_ifs <;> omega
    · split_ifs <;> omega

/-- A pair is joined above FFFF, and its high half comes back from it. -/
theorem joined_high {high low : ℕ} (hhigh : IsHigh high) (hlow : IsLow low) :
    0xFFFF < joined high low ∧ 0xD800 + (joined high low - 0x10000) / 0x400 = high := by
  obtain ⟨h1, h2⟩ := hhigh
  obtain ⟨h3, h4⟩ := hlow
  have heq : joined high low = 0x10000 + (high - 0xD800) * 0x400 + (low - 0xDC00) := rfl
  omega

/-- The code point at an index is the first one of the text that is left: a pair that the end
    cuts in two is its first unit. -/
theorem codePointAt_spec (h : At src pos end_ (u :: t)) :
    uncons (u :: t) = some ((codePointAt src pos end_ (charAtPos pos src)).1,
      (u :: t).drop (codePointAt src pos end_ (charAtPos pos src)).2) ∧
    0 < (codePointAt src pos end_ (charAtPos pos src)).2 ∧
    ((codePointAt src pos end_ (charAtPos pos src)).1 = charAtPos pos src ∨
      0x80 ≤ (codePointAt src pos end_ (charAtPos pos src)).1 ∧ 0x80 ≤ charAtPos pos src) := by
  obtain ⟨t', hd, ht⟩ := h.drop_eq
  have hend := h.1
  have hlen := congrArg List.length hd
  rw [List.length_drop, List.length_cons] at hlen
  have hsmall := u.toNat_lt
  -- `t'` is the source after the unit: the end may cut a pair that the source still has
  cases t' with
  | nil =>
    have hchar : charAtPos pos src = u.toNat := by
      rw [charAtPos, hd]
      rfl
    rw [List.take_nil] at ht
    subst ht
    rw [hchar, codePointAt, if_neg (by omega), if_neg fun hh => by
      have hlt := hh.2
      rw [List.length_nil] at hlen
      omega]
    exact ⟨rfl, Nat.one_pos, Or.inl rfl⟩
  | cons v t'' =>
    -- a pair inside the end is read whole, one across it is read as its first unit
    by_cases hpair : IsHigh u.toNat ∧ IsLow v.toNat
    · obtain ⟨hbig, hsplit⟩ := joined_high hpair.1 hpair.2
      have hchar : charAtPos pos src = joined u.toNat v.toNat := by
        rw [charAtPos, hd, uncons, if_pos hpair]
      rw [hchar, codePointAt, if_pos hbig]
      split
      · next hlt =>
        have hk : end_ - (pos + 1) = end_ - (pos + 2) + 1 := by omega
        rw [hk, List.take_succ_cons] at ht
        rw [ht]
        exact ⟨by rw [uncons, if_pos hpair]; rfl, Nat.two_pos, Or.inl rfl⟩
      · next hlt =>
        rw [Nat.sub_eq_zero_of_le (by omega), List.take_zero] at ht
        rw [ht, hsplit]
        have hge := hpair.1.1
        exact ⟨rfl, Nat.one_pos, Or.inr ⟨by dsimp only; omega, by omega⟩⟩
    · have hchar : charAtPos pos src = u.toNat := by
        rw [charAtPos, hd, uncons, if_neg hpair]
      -- the next code point starts with `v`, so it is no low surrogate either
      have hlow : ¬ (IsHigh u.toNat ∧ IsLow (unsafeIndex src (pos + 1))) := by
        rintro ⟨hhigh, hlow⟩
        have hnext : src.drop (pos + 1) = v :: t'' := by
          rw [← List.drop_drop, hd]
          rfl
        rw [unsafeIndex, hnext] at hlow
        have hv : ¬ IsLow v.toNat := fun hv => hpair ⟨hhigh, hv⟩
        cases t'' with
        | nil => exact hv hlow
        | cons w t₃ =>
          rw [uncons] at hlow
          split_ifs at hlow with hpair'
          · have hbig := (joined_high hpair'.1 hpair'.2).1
            have hle := hlow.2
            dsimp only at hle
            omega
          · exact hv hlow
      have hpoint : codePointAt src pos end_ u.toNat = (u.toNat, 1) := by
        rw [codePointAt, if_neg (by omega)]
        split
        · next hh => exact if_neg fun hl => hlow ⟨hh.1, hl⟩
        · rfl
      rw [hchar, hpoint]
      refine ⟨?_, Nat.one_pos, Or.inl rfl⟩
      cases ht' : t with
      | nil => rfl
      | cons v' t₃ =>
        have hv : v' = v := by
          rw [ht'] at ht
          cases hk : end_ - (pos + 1) with
          | zero =>
            rw [hk, List.take_zero] at ht
            cases ht
          | succ k =>
            rw [hk, List.take_succ_cons] at ht
            exact (List.cons.inj ht).1
        rw [hv]
        rw [uncons, if_neg hpair]
        rfl

/-- What a number must not run into, by the characters that are left. -/
theorem isDirtyEnd_iff (isAlpha : ℕ → Bool) (h : At src pos end_ (u :: t)) :
    isDirtyEnd isAlpha src pos end_ (charAtPos pos src) = true ↔
      StartsInner isAlpha (u :: t) := by
  obtain ⟨huncons, hwidth, hcode⟩ := codePointAt_spec h
  have hstarts : StartsInner isAlpha (u :: t) ↔
      IsInner isAlpha (codePointAt src pos end_ (charAtPos pos src)).1 := by
    constructor
    · rintro ⟨code, rest', heq, hinner⟩
      rw [huncons] at heq
      rw [(Prod.mk.inj (Option.some.inj heq)).1]
      exact hinner
    · exact fun hinner => ⟨_, _, huncons, hinner⟩
  rw [hstarts, isDirtyEnd, decide_eq_true_eq, getInnerWidthHelp, IsInner, nonAsciiWidth]
  generalize codePointAt src pos end_ (charAtPos pos src) = p at hwidth hcode
  generalize charAtPos pos src = code at hcode
  obtain ⟨cp, width⟩ := p
  dsimp only at hwidth hcode ⊢
  rcases hcode with rfl | ⟨hcp, hcode⟩ <;> split_ifs <;> simp_all <;> omega

/-! ## Runs of digits -/

/-- The exponent's loop passes over digits. -/
theorem chompExponentHelp_skip {ds : Text} (hds : ∀ u ∈ ds, IsDigit u)
    (h : At src pos end_ (ds ++ t)) :
    chompExponentHelp src pos end_ = chompExponentHelp src (pos + ds.length) end_ := by
  induction ds generalizing pos with
  | nil => rfl
  | cons u ds ih =>
    have hdigit := (isDecimalDigit_iff h).mpr (hds u (List.mem_cons_self ..))
    have hrest := ih (fun v hv => hds v (List.mem_cons_of_mem u hv)) h.tail
    rw [chompExponentHelp, if_neg (Nat.not_le.mpr h.lt_of_cons), if_pos hdigit, hrest,
      List.length_cons, Nat.add_right_comm, Nat.add_assoc]

variable (isAlpha : ℕ → Bool)

/-- The fraction's loop passes over digits. -/
theorem chompFractionHelp_skip {ds : Text} (hds : ∀ u ∈ ds, IsDigit u)
    (h : At src pos end_ (ds ++ t)) : chompFractionHelp isAlpha src pos end_
      = chompFractionHelp isAlpha src (pos + ds.length) end_ := by
  induction ds generalizing pos with
  | nil => rfl
  | cons u ds ih =>
    have hdigit := (isDecimalDigit_iff h).mpr (hds u (List.mem_cons_self ..))
    have hrest := ih (fun v hv => hds v (List.mem_cons_of_mem u hv)) h.tail
    rw [chompFractionHelp, if_neg (Nat.not_le.mpr h.lt_of_cons)]
    dsimp only
    rw [if_pos hdigit, hrest, List.length_cons, Nat.add_right_comm, Nat.add_assoc]

/-- The value modulo 2^64, digit by digit. -/
theorem wrap_step (base n d : ℕ) :
    wrap (base * wrap n + d) = wrap ((base * n + d : ℕ) : ℤ) := by
  rw [wrap, wrap, wrap]
  push_cast
  rw [Int.add_bmod, Int.mul_bmod_bmod, ← Int.add_bmod]

/-- The loop over decimal digits passes over them and counts their value, wrapped. -/
theorem chompInt_skip {ds : Text} (hds : ∀ u ∈ ds, IsDigit u) (h : At src pos end_ (ds ++ t))
    (n : ℕ) : chompInt isAlpha src pos end_ (wrap n)
      = chompInt isAlpha src (pos + ds.length) end_ (wrap (valueFrom 10 n ds)) := by
  induction ds generalizing pos n with
  | nil => rfl
  | cons u ds ih =>
    have hu := hds u (List.mem_cons_self ..)
    have hdigit := (isDecimalDigit_iff h).mpr hu
    have hrest := ih (fun v hv => hds v (List.mem_cons_of_mem u hv)) h.tail (10 * n + digitValue u)
    have hvalue : ((charAtPos pos src : ℕ) : ℤ) - 48 = digitValue u := by
      rw [charAtPos_of_digit h hu.isHexDigit, ← sub_eq_digitValue hu]
      have hle := hu.1
      omega
    have hstep := wrap_step 10 n (digitValue u)
    rw [chompInt, if_neg (Nat.not_le.mpr h.lt_of_cons)]
    dsimp only
    rw [if_pos hdigit, hvalue]
    push_cast at hstep
    rw [hstep]
    push_cast at hrest
    rw [hrest, List.length_cons, Nat.add_right_comm, Nat.add_assoc]
    rfl

/-- The loop over hex digits passes over them and counts their value, wrapped. -/
theorem chompHexHelp_skip {ds : Text} (hds : ∀ u ∈ ds, IsHexDigit u)
    (h : At src pos end_ (ds ++ t)) (answer : ℤ) (n : ℕ) :
    chompHexHelp isAlpha src pos end_ answer (wrap n)
      = chompHexHelp isAlpha src (pos + ds.length) end_
        (if ds = [] then answer else wrap (valueFrom 16 n ds)) (wrap (valueFrom 16 n ds)) := by
  induction ds generalizing pos n answer with
  | nil => rfl
  | cons u ds ih =>
    have hu := hds u (List.mem_cons_self ..)
    have hvalue := (hexDigitValue_of h).1 hu
    have hstep := wrap_step 16 n (digitValue u)
    have hrest := ih (fun v hv => hds v (List.mem_cons_of_mem u hv)) h.tail
      (wrap ((16 * n + digitValue u : ℕ) : ℤ)) (16 * n + digitValue u)
    rw [chompHexHelp, if_neg (Nat.not_le.mpr h.lt_of_cons)]
    dsimp only
    rw [hvalue, if_neg (by omega)]
    push_cast at hstep hrest ⊢
    rw [hstep, hrest, List.length_cons, Nat.add_right_comm, Nat.add_assoc]
    have hnil : (if ds = [] then wrap (16 * (n : ℤ) + digitValue u)
        else wrap (valueFrom 16 (16 * n + digitValue u) ds))
        = wrap (valueFrom 16 (16 * n + digitValue u) ds) := by
      split
      · next heq =>
        rw [heq]
        push_cast [valueFrom, List.foldl_nil]
        rfl
      · rfl
    rw [hnil]
    rfl

/-! ## A literal is scanned to its end -/

theorem startsInner_of {code : ℕ} (h : u.toNat = code) (hcode : IsInner isAlpha code)
    (hsmall : code < 0xD800) (t : Text) : StartsInner isAlpha (u :: t) := by
  subst h
  cases t with
  | nil => exact ⟨_, [], rfl, hcode⟩
  | cons v t =>
    have hnot : ¬ (IsHigh u.toNat ∧ IsLow v.toNat) := fun hh => absurd hh.1.1 hsmall.not_ge
    exact ⟨_, v :: t, by rw [uncons, if_neg hnot], hcode⟩

/-- A digit continues a name. -/
theorem startsInner_of_digit (hu : IsDigit u) (t : Text) : StartsInner isAlpha (u :: t) :=
  startsInner_of isAlpha rfl (Or.inr (Or.inr (Or.inl hu))) hu.isHexDigit.lt t

/-- Where an exponent ends its loop gives the float. -/
theorem chompExponentHelp_end (h : At src pos end_ t) (ends : Ends isAlpha .exponent t) :
    chompExponentHelp src pos end_ = .okFloat pos := by
  rw [chompExponentHelp]
  cases t with
  | nil => rw [if_pos h.le_of_nil]
  | cons u t =>
    have hdigit : ¬ isDecimalDigit (charAtPos pos src) = true := fun hd =>
      ends u rfl ((isDecimalDigit_iff h).mp hd)
    rw [if_neg (Nat.not_le.mpr h.lt_of_cons), if_neg hdigit]

/-- Where a fraction ends its loop gives the float. -/
theorem chompFractionHelp_end (h : At src pos end_ t) (ends : Ends isAlpha .fraction t) :
    chompFractionHelp isAlpha src pos end_ = .okFloat pos := by
  rw [chompFractionHelp]
  cases t with
  | nil => rw [if_pos h.le_of_nil]
  | cons u t =>
    have hdigit : ¬ isDecimalDigit (charAtPos pos src) = true := fun hd =>
      ends (startsInner_of_digit isAlpha ((isDecimalDigit_iff h).mp hd) t)
    have hexp : ¬ (charAtPos pos src = 101 ∨ charAtPos pos src = 69) := by
      rw [charAtPos_eq_iff h (by decide), charAtPos_eq_iff h (by decide)]
      rintro (heq | heq)
      · exact ends (startsInner_of isAlpha heq (Or.inl (by decide)) (by decide) t)
      · exact ends (startsInner_of isAlpha heq (Or.inr (Or.inl (by decide))) (by decide) t)
    have hdirty : ¬ isDirtyEnd isAlpha src pos end_ (charAtPos pos src) = true := fun hd =>
      ends ((isDirtyEnd_iff isAlpha h).mp hd)
    rw [if_neg (Nat.not_le.mpr h.lt_of_cons)]
    dsimp only
    rw [if_neg hdigit, if_neg hexp, if_neg hdirty]

/-- Where a decimal ends its loop gives the value counted. -/
theorem chompInt_end (h : At src pos end_ t) (ends : Ends isAlpha .decimal t) (n : ℤ) :
    chompInt isAlpha src pos end_ n = .okInt pos n := by
  rw [chompInt]
  cases t with
  | nil => rw [if_pos h.le_of_nil]
  | cons u t =>
    obtain ⟨hinner, hdot⟩ := ends
    have hdigit : ¬ isDecimalDigit (charAtPos pos src) = true := fun hd =>
      hinner (startsInner_of_digit isAlpha ((isDecimalDigit_iff h).mp hd) t)
    have hdot' : ¬ charAtPos pos src = 46 := by
      rw [charAtPos_eq_iff h (by decide)]
      intro heq
      refine hdot ?_
      rw [List.head?_cons, Option.some.injEq]
      exact UInt16.toNat_inj.mp heq
    have hexp : ¬ (charAtPos pos src = 101 ∨ charAtPos pos src = 69) := by
      rw [charAtPos_eq_iff h (by decide), charAtPos_eq_iff h (by decide)]
      rintro (heq | heq)
      · exact hinner (startsInner_of isAlpha heq (Or.inl (by decide)) (by decide) t)
      · exact hinner (startsInner_of isAlpha heq (Or.inr (Or.inl (by decide))) (by decide) t)
    have hdirty : ¬ isDirtyEnd isAlpha src pos end_ (charAtPos pos src) = true := fun hd =>
      hinner ((isDirtyEnd_iff isAlpha h).mp hd)
    rw [if_neg (Nat.not_le.mpr h.lt_of_cons)]
    dsimp only
    rw [if_neg hdigit, if_neg hdot', if_neg hexp, if_neg hdirty]

/-- Where a lone zero ends the value is zero. -/
theorem chompZero_end (h : At src pos end_ t) (ends : Ends isAlpha .decimal t) :
    chompZero isAlpha src pos end_ = .okInt pos 0 := by
  rw [chompZero]
  cases t with
  | nil => rw [if_pos h.le_of_nil]
  | cons u t =>
    obtain ⟨hinner, hdot⟩ := ends
    have hx : ¬ charAtPos pos src = 120 := by
      rw [charAtPos_eq_iff h (by decide)]
      exact fun heq => hinner (startsInner_of isAlpha heq (Or.inl (by decide)) (by decide) t)
    have hdot' : ¬ charAtPos pos src = 46 := by
      rw [charAtPos_eq_iff h (by decide)]
      intro heq
      refine hdot ?_
      rw [List.head?_cons, Option.some.injEq]
      exact UInt16.toNat_inj.mp heq
    have hdigit : ¬ isDecimalDigit (charAtPos pos src) = true := fun hd =>
      hinner (startsInner_of_digit isAlpha ((isDecimalDigit_iff h).mp hd) t)
    have hdirty : ¬ isDirtyEnd isAlpha src pos end_ (charAtPos pos src) = true := fun hd =>
      hinner ((isDirtyEnd_iff isAlpha h).mp hd)
    rw [if_neg (Nat.not_le.mpr h.lt_of_cons)]
    dsimp only
    rw [if_neg hx, if_neg hdot', if_neg hdigit, if_neg hdirty]

/-- A run of hexadecimal digits ends at the first character that is none. -/
theorem chompHexHelp_end (h : At src pos end_ t) (hnot : ∀ u, t.head? = some u → ¬ IsHexDigit u)
    (answer n : ℤ) : (chompHexHelp isAlpha src pos end_ answer n).1 = pos ∧
      (¬ StartsInner isAlpha t → (chompHexHelp isAlpha src pos end_ answer n).2 = answer) := by
  rw [chompHexHelp]
  cases t with
  | nil =>
    rw [if_pos h.le_of_nil]
    exact ⟨rfl, fun _ => rfl⟩
  | cons u t =>
    have hdigit := (hexDigitValue_of h).2 (hnot u rfl)
    rw [if_neg (Nat.not_le.mpr h.lt_of_cons)]
    dsimp only
    rw [if_pos hdigit]
    refine ⟨rfl, fun hinner => if_neg fun hd => hinner ((isDirtyEnd_iff isAlpha h).mp hd)⟩

theorem head_not_hexDigit (ends : ¬ StartsInner isAlpha t) :
    ∀ u, t.head? = some u → ¬ IsHexDigit u := by
  intro u hhead hu
  cases t with
  | nil => cases hhead
  | cons v t =>
    obtain rfl := Option.some.inj hhead
    refine ends (startsInner_of isAlpha rfl ?_ hu.lt t)
    rcases hu with hu | hu | hu
    · exact Or.inr (Or.inr (Or.inl hu))
    · exact Or.inl ⟨hu.1, hu.2.trans (by decide)⟩
    · exact Or.inr (Or.inl ⟨hu.1, hu.2.trans (by decide)⟩)

/-- The digits after `0x`, and their value. -/
theorem chompHexInt_of {ds : Text} (hne : ds ≠ []) (hds : ∀ u ∈ ds, IsHexDigit u)
    (h : At src pos end_ (ds ++ t)) (ends : ¬ StartsInner isAlpha t) :
    chompHexInt isAlpha src pos end_ = .okInt (pos + ds.length) (wrap (valueFrom 16 0 ds)) := by
  have hskip := chompHexHelp_skip isAlpha hds h (-1) 0
  have hrest := h.append
  have hend := chompHexHelp_end isAlpha hrest (head_not_hexDigit isAlpha ends)
    (wrap (valueFrom 16 0 ds)) (wrap (valueFrom 16 0 ds))
  have hzero : wrap ((0 : ℕ) : ℤ) = 0 := rfl
  rw [if_neg hne, hzero] at hskip
  rw [chompHexInt, chompHex, hskip]
  generalize chompHexHelp isAlpha src (pos + ds.length) end_ _ _ = p at hend
  obtain ⟨newPos, answer⟩ := p
  obtain ⟨hpos, hanswer⟩ := hend
  dsimp only at hpos hanswer ⊢
  rw [hpos, hanswer ends, if_neg]
  have hlen := List.length_pos_of_ne_nil hne
  rintro (heq | ⟨hlt, hdirty⟩)
  · omega
  · cases t with
    | nil => exact absurd hrest.le_of_nil (Nat.not_le.mpr hlt)
    | cons u t => exact ends ((isDirtyEnd_iff isAlpha hrest).mp hdirty)

/-- An exponent without a sign goes straight to its digits. -/
theorem chompExponent_digits {ds : Text} (hds : Digits ds) (h : At src pos end_ (ds ++ t)) :
    chompExponent src pos end_ = chompExponentHelp src (pos + ds.length) end_ := by
  obtain ⟨hne, hall⟩ := hds
  cases ds with
  | nil => exact absurd rfl hne
  | cons u ds =>
    have hdigit := (isDecimalDigit_iff h).mpr (hall u (List.mem_cons_self ..))
    have hskip := chompExponentHelp_skip (fun v hv => hall v (List.mem_cons_of_mem u hv)) h.tail
    rw [chompExponent, if_neg (Nat.not_le.mpr h.lt_of_cons)]
    dsimp only
    rw [if_pos hdigit, hskip, List.length_cons, Nat.add_right_comm, Nat.add_assoc]

/-- A sign before the digits is passed over. -/
theorem chompExponent_sign {ds : Text} (hu : u = 43 ∨ u = 45) (hds : Digits ds)
    (h : At src pos end_ (u :: (ds ++ t))) :
    chompExponent src pos end_ = chompExponentHelp src (pos + 1 + ds.length) end_ := by
  obtain ⟨hne, hall⟩ := hds
  cases ds with
  | nil => exact absurd rfl hne
  | cons v ds =>
    have hdigit := (isDecimalDigit_iff h.tail).mpr (hall v (List.mem_cons_self ..))
    have hsign : charAtPos pos src = 43 ∨ charAtPos pos src = 45 := by
      rw [charAtPos_eq_iff h (by decide), charAtPos_eq_iff h (by decide)]
      exact hu.imp (congrArg UInt16.toNat) (congrArg UInt16.toNat)
    have hnot : ¬ isDecimalDigit (charAtPos pos src) = true := by
      rw [isDecimalDigit_iff h]
      rcases hu with rfl | rfl <;> decide
    have hskip := chompExponentHelp_skip (fun w hw => hall w (List.mem_cons_of_mem v hw))
      h.tail.tail
    rw [chompExponent, if_neg (Nat.not_le.mpr h.lt_of_cons)]
    dsimp only
    rw [if_neg hnot, if_pos hsign, if_pos ⟨h.tail.lt_of_cons, hdigit⟩]
    refine hskip.trans ?_
    rw [List.length_cons]
    congr 1
    omega

/-- An exponent of the grammar is read to its end. -/
theorem chompExponent_of {e : Text} (he : IsExponent e) (h : At src pos end_ (e ++ t))
    (ends : Ends isAlpha .exponent t) :
    chompExponent src (pos + 1) end_ = .okFloat (pos + e.length) := by
  obtain ⟨c, s, ds, -, hs, hds, rfl⟩ := he
  have htail : At src (pos + 1) end_ (s ++ ds ++ t) := h.tail
  rcases hs with rfl | rfl | rfl
  · have hend := chompExponentHelp_end isAlpha htail.append ends
    rw [chompExponent_digits hds htail]
    refine hend.trans (congrArg Outcome.okFloat ?_)
    show pos + 1 + ds.length = pos + (ds.length + 1)
    omega
  all_goals
    have hend := chompExponentHelp_end isAlpha htail.tail.append ends
    rw [chompExponent_sign (by simp) hds htail]
    refine hend.trans (congrArg Outcome.okFloat ?_)
    show pos + 1 + 1 + ds.length = pos + (ds.length + 1 + 1)
    omega

/-- The digits after the point are read before an exponent is looked for. -/
theorem chompFraction_of {f : Text} (hf : Digits f) (h : At src pos end_ (46 :: (f ++ t)))
    (n : ℤ) : chompFraction isAlpha src pos end_ n
      = chompFractionHelp isAlpha src (pos + 1 + f.length) end_ := by
  obtain ⟨hne, hall⟩ := hf
  cases f with
  | nil => exact absurd rfl hne
  | cons u f =>
    have hdigit := (isDecimalDigit_iff h.tail).mpr (hall u (List.mem_cons_self ..))
    have hskip := chompFractionHelp_skip isAlpha (fun v hv => hall v (List.mem_cons_of_mem u hv))
      h.tail.tail
    rw [chompFraction, if_neg (Nat.not_le.mpr h.tail.lt_of_cons), if_pos hdigit, hskip,
      List.length_cons]
    congr 1
    omega

/-- The integer part is scanned first. -/
theorem outcome_of_decimal {st : State} {i : Text} (hi : IsDecimal i) (hne : i ≠ [48])
    (h : At st.src st.pos st.end_ (i ++ t)) : outcome isAlpha st
      = chompInt isAlpha st.src (st.pos + i.length) st.end_ (wrap (valueFrom 10 0 i)) := by
  obtain ⟨⟨hnil, hall⟩, hhead⟩ := hi.resolve_left hne
  cases i with
  | nil => exact absurd rfl hnil
  | cons u i =>
    have hu := hall u (List.mem_cons_self ..)
    have hchar := charAtPos_of_digit h hu.isHexDigit
    have hzero : u.toNat ≠ 48 := by
      intro heq
      refine hhead ?_
      rw [List.head?_cons, Option.some.injEq]
      exact UInt16.toNat_inj.mp heq
    have hvalue : ((u.toNat : ℕ) : ℤ) - 48 = wrap (digitValue u) := by
      have hle := hu.1
      have hlt := hu.2
      have hdigit := sub_eq_digitValue hu
      rw [wrap, Int.bmod_eq_of_le] <;> omega
    have hskip := chompInt_skip isAlpha (fun v hv => hall v (List.mem_cons_of_mem u hv)) h.tail
      (digitValue u)
    rw [outcome, hchar, if_neg hzero, hvalue, hskip, List.length_cons, Nat.add_right_comm,
      Nat.add_assoc]
    have hfold : valueFrom 10 0 (u :: i) = valueFrom 10 (digitValue u) i := by
      rw [valueFrom, valueFrom, List.foldl_cons, Nat.mul_zero, Nat.zero_add]
    rw [hfold]

/-- A literal that starts with zero is scanned by the branch for zero. -/
theorem outcome_of_zero {st : State} (h : At st.src st.pos st.end_ (48 :: t)) :
    outcome isAlpha st = chompZero isAlpha st.src (st.pos + 1) st.end_ := by
  have hchar : charAtPos st.pos st.src = 48 := (charAtPos_eq_iff h (by decide)).mpr rfl
  rw [outcome, if_pos hchar]

/-- A dot after the integer part starts a fraction. -/
theorem outcome_of_dot {st : State} {i : Text} (hi : IsDecimal i)
    (h : At st.src st.pos st.end_ (i ++ 46 :: t)) : ∃ n, outcome isAlpha st
      = chompFraction isAlpha st.src (st.pos + i.length) st.end_ n := by
  by_cases hzero : i = [48]
  · subst hzero
    have hdot : charAtPos (st.pos + 1) st.src = 46 := (charAtPos_eq_iff h.tail (by decide)).mpr rfl
    refine ⟨0, ?_⟩
    rw [outcome_of_zero isAlpha h, chompZero, if_neg (Nat.not_le.mpr h.tail.lt_of_cons)]
    dsimp only
    rw [hdot]
    rfl
  · have hrest := h.append
    have hdot : charAtPos (st.pos + i.length) st.src = 46 :=
      (charAtPos_eq_iff hrest (by decide)).mpr rfl
    refine ⟨wrap (valueFrom 10 0 i), ?_⟩
    rw [outcome_of_decimal isAlpha hi hzero h, chompInt,
      if_neg (Nat.not_le.mpr hrest.lt_of_cons)]
    dsimp only
    rw [hdot]
    rfl

/-- What `outcome` is on a literal. -/
def Kind.outcome (kind : Kind) (pos : ℕ) (l : Text) : Outcome :=
  match kind with
  | .decimal => .okInt pos (wrap (value .decimal l))
  | .hexadecimal => .okInt pos (wrap (value .hexadecimal l))
  | .fraction => .okFloat pos
  | .exponent => .okFloat pos

/-- An `e` or `E` after a mantissa starts an exponent. -/
theorem outcome_of_e {st : State} {m : Text} (hm : IsMantissa m) (hu : u = 101 ∨ u = 69)
    (h : At st.src st.pos st.end_ (m ++ u :: t)) :
    outcome isAlpha st = chompExponent st.src (st.pos + m.length + 1) st.end_ := by
  have hrest := h.append
  have hexp : charAtPos (st.pos + m.length) st.src = 101 ∨
      charAtPos (st.pos + m.length) st.src = 69 := by
    rw [charAtPos_eq_iff hrest (by decide), charAtPos_eq_iff hrest (by decide)]
    exact hu.imp (congrArg UInt16.toNat) (congrArg UInt16.toNat)
  have hdigit : ¬ isDecimalDigit (charAtPos (st.pos + m.length) st.src) = true := by
    rw [isDecimalDigit_iff hrest]
    rcases hu with rfl | rfl <;> decide
  rcases hm with ⟨hi, hne⟩ | ⟨i, f, hi, hf, rfl⟩
  · have hdot : ¬ charAtPos (st.pos + m.length) st.src = 46 := by omega
    rw [outcome_of_decimal isAlpha hi hne h, chompInt, if_neg (Nat.not_le.mpr hrest.lt_of_cons)]
    dsimp only
    rw [if_neg hdigit, if_neg hdot, if_pos hexp]
  · have hat : At st.src st.pos st.end_ (i ++ 46 :: (f ++ u :: t)) := by
      simpa using h
    obtain ⟨n, heq⟩ := outcome_of_dot isAlpha hi hat
    have hpos : st.pos + i.length + 1 + f.length = st.pos + (i ++ 46 :: f).length := by
      rw [List.length_append, List.length_cons]
      omega
    rw [heq, chompFraction_of isAlpha hf hat.append, hpos, chompFractionHelp,
      if_neg (Nat.not_le.mpr hrest.lt_of_cons)]
    dsimp only
    rw [if_neg hdigit, if_pos hexp]

/-- A literal with what may follow it is scanned to its end. -/
theorem outcome_of_literal {st : State} {kind : Kind} (hl : Literal kind l)
    (h : At st.src st.pos st.end_ (l ++ t)) (ends : Ends isAlpha kind t) :
    outcome isAlpha st = kind.outcome (st.pos + l.length) l := by
  cases kind with
  | decimal =>
    by_cases hzero : l = [48]
    · subst hzero
      have hvalue : value .decimal [48] = 0 := by decide
      rw [outcome_of_zero isAlpha h, chompZero_end isAlpha h.tail ends, Kind.outcome, hvalue]
      rfl
    · rw [outcome_of_decimal isAlpha hl hzero h, chompInt_end isAlpha h.append ends]
      rfl
  | hexadecimal =>
    obtain ⟨ds, hne, hds, rfl⟩ := hl
    have hx : charAtPos (st.pos + 1) st.src = 120 := (charAtPos_eq_iff h.tail (by decide)).mpr rfl
    have hhex := chompHexInt_of isAlpha hne hds h.tail.tail ends
    rw [outcome_of_zero isAlpha h, chompZero, if_neg (Nat.not_le.mpr h.tail.lt_of_cons)]
    dsimp only
    rw [if_pos hx]
    refine hhex.trans ?_
    rw [Kind.outcome, List.length_cons, List.length_cons]
    congr 1
    omega
  | fraction =>
    obtain ⟨i, f, hi, hf, rfl⟩ := hl
    have hat : At st.src st.pos st.end_ (i ++ 46 :: (f ++ t)) := by
      simpa using h
    obtain ⟨n, heq⟩ := outcome_of_dot isAlpha hi hat
    have hpos : st.pos + i.length + 1 + f.length = st.pos + (i ++ 46 :: f).length := by
      rw [List.length_append, List.length_cons]
      omega
    rw [heq, chompFraction_of isAlpha hf hat.append, hpos]
    exact chompFractionHelp_end isAlpha h.append ends
  | exponent =>
    obtain ⟨m, e, hm, he, rfl⟩ := hl
    obtain ⟨c, s, ds, hc, hs, hds, rfl⟩ := id he
    rw [List.append_assoc] at h
    rw [outcome_of_e isAlpha hm hc h, chompExponent_of isAlpha he h.append ends, Kind.outcome,
      List.length_append, Nat.add_assoc]

/-! ## Whatever is scanned -/

/-- The longest run of units of a kind. -/
theorem exists_run (p : UInt16 → Prop) [DecidablePred p] (t : Text) : ∃ ds t', t = ds ++ t' ∧
    (∀ u ∈ ds, p u) ∧ ∀ u, t'.head? = some u → ¬ p u := by
  refine ⟨t.takeWhile fun u => p u, t.dropWhile fun u => p u,
    (List.takeWhile_append_dropWhile).symm, fun u hu => ?_, fun u hu => ?_⟩
  · have hmem := List.mem_takeWhile_imp (p := fun u => decide (p u)) hu
    simpa using hmem
  · have hnot := List.head?_dropWhile_not (fun u => decide (p u)) t
    rw [hu] at hnot
    simpa using hnot

/-- The digits at the front of a text, as many as there are. -/
theorem exists_digits (hu : IsDigit u) (t : Text) : ∃ ds t', u :: t = ds ++ t' ∧ Digits ds ∧
    ∀ v, t'.head? = some v → ¬ IsDigit v := by
  obtain ⟨ds, t', heq, hds, hend⟩ := exists_run IsDigit (u :: t)
  refine ⟨ds, t', heq, ⟨?_, hds⟩, hend⟩
  rintro rfl
  rw [List.nil_append] at heq
  refine hend u ?_ hu
  rw [← heq]
  rfl

/-- The text starts with a literal and what may follow it, or scanning fails inside or just
    after the units that still are the start of some literal. -/
def Classified (t : Text) (start : ℕ) (o : Outcome) : Prop :=
  (∃ kind l rest, t = l ++ rest ∧ Literal kind l ∧ Ends isAlpha kind rest) ∨
  ∃ k problem, o = .err_ (start + k) problem ∧ 0 < k ∧ k ≤ t.length ∧
    ∃ kind w, Literal kind (t.take k ++ w)

/-- A failure just after units that still are the start of a literal is a classified outcome. -/
theorem classified_fail {p r w : Text} {start newPos : ℕ} {kind : Kind} (hp : p ≠ [])
    (hl : Literal kind (p ++ w)) (hpos : newPos = start + p.length) (problem : Problem) :
    Classified isAlpha (p ++ r) start (.err_ newPos problem) := by
  refine Or.inr ⟨p.length, problem, by rw [hpos], List.length_pos_of_ne_nil hp, ?_, kind, w, ?_⟩
  · rw [List.length_append]
    exact Nat.le_add_right _ _
  · rw [List.take_left]
    exact hl

theorem IsDecimal.ne_nil {i : Text} (h : IsDecimal i) : i ≠ [] := by
  rcases h with rfl | h
  · exact List.cons_ne_nil _ _
  · exact h.1.1

theorem digits_zero : Digits [48] := ⟨List.cons_ne_nil _ _, fun u hu => by
  rw [List.mem_singleton.mp hu]
  decide⟩

/-- The exponent's branch: a literal was read, or it fails where none can be completed. -/
theorem exponent_classified {m : Text} {c : UInt16} (hm : IsMantissa m) (hc : c = 101 ∨ c = 69)
    (h : At src (pos + m.length + 1) end_ t) :
    Classified isAlpha (m ++ c :: t) pos (chompExponent src (pos + m.length + 1) end_) := by
  have literal : ∀ {s ds : Text}, (s = [] ∨ s = [43] ∨ s = [45]) → Digits ds →
      Literal .exponent (m ++ c :: (s ++ ds)) := fun hs hds =>
    ⟨m, _, hm, ⟨c, _, _, hc, hs, hds, rfl⟩, rfl⟩
  -- an exponent without digits is an error just after its mark, which `0` would complete
  have hfail : ∀ problem, Classified isAlpha (m ++ c :: t) pos
      (.err_ (pos + m.length + 1) problem) := by
    intro problem
    have hzero : Literal .exponent ((m ++ [c]) ++ [48]) := by
      simpa using literal (Or.inl rfl) digits_zero
    have hpos : pos + m.length + 1 = pos + (m ++ [c]).length := by
      rw [List.length_append, List.length_singleton, Nat.add_assoc]
    have hall := classified_fail isAlpha (r := t) (by simp) hzero hpos problem
    simpa using hall
  cases t with
  | nil =>
    rw [chompExponent, if_pos h.le_of_nil]
    exact hfail _
  | cons u t =>
    by_cases hu : IsDigit u
    · obtain ⟨ds, t', heq, hds, hend⟩ := exists_digits hu t
      exact Or.inl ⟨.exponent, m ++ c :: ([] ++ ds), t', by rw [heq]; simp,
        literal (Or.inl rfl) hds, hend⟩
    · have hdigit : ¬ isDecimalDigit (charAtPos (pos + m.length + 1) src) = true := fun hd =>
        hu ((isDecimalDigit_iff h).mp hd)
      -- a sign counts only when a digit follows it
      by_cases hsign : (u = 43 ∨ u = 45) ∧ ∃ v, t.head? = some v ∧ IsDigit v
      · obtain ⟨hsign, v, hhead, hv⟩ := hsign
        cases t with
        | nil => cases hhead
        | cons v' t =>
          obtain rfl := Option.some.inj hhead
          obtain ⟨ds, t', heq, hds, hend⟩ := exists_digits hv t
          refine Or.inl ⟨.exponent, m ++ c :: ([u] ++ ds), t', by rw [heq]; simp,
            literal (Or.inr ?_) hds, hend⟩
          exact hsign.imp (congrArg (fun u => [u])) (congrArg fun u => [u])
      · rw [chompExponent, if_neg (Nat.not_le.mpr h.lt_of_cons)]
        dsimp only
        rw [if_neg hdigit]
        split
        · next hchar =>
          rw [charAtPos_eq_iff h (by decide), charAtPos_eq_iff h (by decide)] at hchar
          rw [if_neg]
          · exact hfail _
          · rintro ⟨hlt, hd⟩
            refine hsign ⟨hchar.imp UInt16.toNat_inj.mp UInt16.toNat_inj.mp, ?_⟩
            cases t with
            | nil => exact absurd h.tail.le_of_nil (Nat.not_le.mpr hlt)
            | cons v t => exact ⟨v, rfl, (isDecimalDigit_iff h.tail).mp hd⟩
        · exact hfail _

/-- The loop over the fraction, the same. -/
theorem fractionHelp_classified {i f : Text} (hi : IsDecimal i) (hf : Digits f)
    (h : At src (pos + (i ++ 46 :: f).length) end_ t) :
    Classified isAlpha ((i ++ 46 :: f) ++ t) pos
      (chompFractionHelp isAlpha src (pos + (i ++ 46 :: f).length) end_) := by
  obtain ⟨ds, t, rfl, hds, hend⟩ := exists_run IsDigit t
  have hf' : Digits (f ++ ds) := by
    refine ⟨fun hnil => hf.1 (List.append_eq_nil_iff.mp hnil).1, fun u hu => ?_⟩
    exact (List.mem_append.mp hu).elim (hf.2 u) (hds u)
  have hskip := chompFractionHelp_skip isAlpha hds h
  have hrest := h.append
  have hpos : pos + (i ++ 46 :: f).length + ds.length = pos + (i ++ 46 :: (f ++ ds)).length := by
    simp only [List.length_append, List.length_cons]
    omega
  have htext : (i ++ 46 :: f) ++ (ds ++ t) = (i ++ 46 :: (f ++ ds)) ++ t := by simp
  have literal : IsFraction (i ++ 46 :: (f ++ ds)) := ⟨i, f ++ ds, hi, hf', rfl⟩
  rw [hskip, hpos, htext]
  rw [hpos] at hrest
  generalize i ++ 46 :: (f ++ ds) = p at *
  by_cases hends : StartsInner isAlpha t
  · cases t with
    | nil =>
      obtain ⟨code, rest, heq, -⟩ := hends
      cases heq
    | cons u t =>
      have hdigit : ¬ isDecimalDigit (charAtPos (pos + p.length) src) = true := fun hd =>
        hend u rfl ((isDecimalDigit_iff hrest).mp hd)
      rw [chompFractionHelp, if_neg (Nat.not_le.mpr hrest.lt_of_cons)]
      dsimp only
      rw [if_neg hdigit]
      split
      · next hchar =>
        rw [charAtPos_eq_iff hrest (by decide), charAtPos_eq_iff hrest (by decide)] at hchar
        exact exponent_classified isAlpha (Or.inr literal)
          (hchar.imp UInt16.toNat_inj.mp UInt16.toNat_inj.mp) hrest.tail
      · rw [if_pos ((isDirtyEnd_iff isAlpha hrest).mpr hends)]
        have hne : p ≠ [] := by
          obtain ⟨j, g, -, -, rfl⟩ := literal
          simp
        have hlit : Literal .fraction (p ++ []) := by
          rw [List.append_nil]
          exact literal
        exact classified_fail isAlpha hne hlit rfl _
  · exact Or.inl ⟨.fraction, p, t, rfl, literal, hends⟩

/-- The fraction's branch, the same. -/
theorem fraction_classified {i : Text} (hi : IsDecimal i)
    (h : At src (pos + i.length) end_ (46 :: t)) (n : ℤ) :
    Classified isAlpha (i ++ 46 :: t) pos (chompFraction isAlpha src (pos + i.length) end_ n) := by
  have hfail : ∀ problem, Classified isAlpha (i ++ 46 :: t) pos
      (.err_ (pos + i.length) problem) := by
    intro problem
    have hlit : Literal .decimal (i ++ []) := by
      rw [List.append_nil]
      exact hi
    exact classified_fail isAlpha hi.ne_nil hlit rfl problem
  cases t with
  | nil =>
    rw [chompFraction, if_pos h.tail.le_of_nil]
    exact hfail _
  | cons u t =>
    by_cases hu : IsDigit u
    · have hdigits : Digits [u] := ⟨List.cons_ne_nil _ _, fun v hv => by
        rw [List.mem_singleton.mp hv]
        exact hu⟩
      have hof := chompFraction_of isAlpha (f := [u]) (t := t) hdigits h n
      have hpos : pos + i.length + 1 + [u].length = pos + (i ++ 46 :: [u]).length := by
        simp only [List.length_append, List.length_cons, List.length_nil]
        omega
      have hat : At src (pos + (i ++ 46 :: [u]).length) end_ t := by
        rw [← hpos]
        exact h.tail.tail
      have hall := fractionHelp_classified isAlpha hi hdigits hat
      rw [hof, hpos]
      simpa using hall
    · rw [chompFraction, if_neg (Nat.not_le.mpr h.tail.lt_of_cons),
        if_neg fun hd => hu ((isDecimalDigit_iff h.tail).mp hd)]
      exact hfail _

/-- The branch for a decimal that does not start with zero, the same. -/
theorem int_classified {i : Text} (hi : IsDecimal i) (hne : i ≠ [48])
    (h : At src (pos + i.length) end_ t) (hend : ∀ u, t.head? = some u → ¬ IsDigit u) (n : ℤ) :
    Classified isAlpha (i ++ t) pos (chompInt isAlpha src (pos + i.length) end_ n) := by
  cases t with
  | nil =>
    refine Or.inl ⟨.decimal, i, [], rfl, hi, ?_, fun hnil => ?_⟩
    · rintro ⟨code, rest, heq, -⟩
      cases heq
    · cases hnil
  | cons u t =>
    have hdigit : ¬ isDecimalDigit (charAtPos (pos + i.length) src) = true := fun hd =>
      hend u rfl ((isDecimalDigit_iff h).mp hd)
    rw [chompInt, if_neg (Nat.not_le.mpr h.lt_of_cons)]
    dsimp only
    rw [if_neg hdigit]
    split
    · next hdot =>
      rw [charAtPos_eq_iff h (by decide)] at hdot
      obtain rfl : u = 46 := UInt16.toNat_inj.mp hdot
      exact fraction_classified isAlpha hi h n
    · next hdot =>
      split
      · next hchar =>
        rw [charAtPos_eq_iff h (by decide), charAtPos_eq_iff h (by decide)] at hchar
        exact exponent_classified isAlpha (Or.inl ⟨hi, hne⟩)
          (hchar.imp UInt16.toNat_inj.mp UInt16.toNat_inj.mp) h.tail
      · split
        · have hlit : Literal .decimal (i ++ []) := by
            rw [List.append_nil]
            exact hi
          exact classified_fail isAlpha hi.ne_nil hlit rfl _
        · next hdirty =>
          refine Or.inl ⟨.decimal, i, u :: t, rfl, hi,
            fun hinner => hdirty ((isDirtyEnd_iff isAlpha h).mpr hinner), fun hhead => ?_⟩
          rw [charAtPos_eq_iff h (by decide)] at hdot
          rw [Option.some.inj hhead] at hdot
          exact hdot rfl

/-- The branch for hex digits, the same. -/
theorem hex_classified (h : At src (pos + 2) end_ t) :
    Classified isAlpha (48 :: 120 :: t) pos (chompHexInt isAlpha src (pos + 2) end_) := by
  obtain ⟨ds, t, rfl, hds, hend⟩ := exists_run IsHexDigit t
  have hskip := chompHexHelp_skip isAlpha hds h (-1) 0
  have hzero : wrap ((0 : ℕ) : ℤ) = 0 := rfl
  have hrest := h.append
  have hpos := fun answer n => (chompHexHelp_end isAlpha hrest hend answer n).1
  have hfail : (ds = [] ∨ StartsInner isAlpha t) → ∀ problem,
      Classified isAlpha (48 :: 120 :: (ds ++ t)) pos (.err_ (pos + 2 + ds.length) problem) := by
    intro _ problem
    have hlit : Literal .hexadecimal ((48 :: 120 :: ds) ++ [48]) := by
      refine ⟨ds ++ [48], by simp, fun u hu => ?_, rfl⟩
      rcases List.mem_append.mp hu with hu | hu
      · exact hds u hu
      · rw [List.mem_singleton.mp hu]
        decide
    have hlen : pos + 2 + ds.length = pos + (48 :: 120 :: ds : Text).length := by
      simp only [List.length_cons]
      omega
    exact classified_fail isAlpha (List.cons_ne_nil _ _) hlit hlen problem
  by_cases hbad : ds = [] ∨ StartsInner isAlpha t
  · rw [chompHexInt, chompHex, ← hzero, hskip]
    generalize hp : chompHexHelp isAlpha src (pos + 2 + ds.length) end_ _ _ = p
    obtain ⟨newPos, answer⟩ := p
    have hnew : newPos = pos + 2 + ds.length := by
      rw [← hpos, hp]
    dsimp only
    rw [if_pos]
    · rw [hnew]
      exact hfail hbad _
    · rw [hnew]
      rcases hbad with rfl | hinner
      · exact Or.inl rfl
      · cases t with
        | nil =>
          obtain ⟨code, rest, heq, -⟩ := hinner
          cases heq
        | cons u t =>
          exact Or.inr ⟨hrest.lt_of_cons, (isDirtyEnd_iff isAlpha hrest).mpr hinner⟩
  · push Not at hbad
    exact Or.inl ⟨.hexadecimal, 48 :: 120 :: ds, t, rfl, ⟨ds, hbad.1, hds, rfl⟩, hbad.2⟩

/-- The branch for zero, the same. -/
theorem zero_classified (h : At src (pos + 1) end_ t) :
    Classified isAlpha (48 :: t) pos (chompZero isAlpha src (pos + 1) end_) := by
  have hdecimal : IsDecimal [48] := Or.inl rfl
  have hfail : ∀ problem, Classified isAlpha (48 :: t) pos (.err_ (pos + 1) problem) :=
    fun problem =>
    classified_fail isAlpha (p := [48]) (w := []) (List.cons_ne_nil _ _)
      (show Literal .decimal ([48] ++ []) from hdecimal) rfl problem
  cases t with
  | nil =>
    refine Or.inl ⟨.decimal, [48], [], rfl, hdecimal, ?_, fun hnil => ?_⟩
    · rintro ⟨code, rest, heq, -⟩
      cases heq
    · cases hnil
  | cons u t =>
    rw [chompZero, if_neg (Nat.not_le.mpr h.lt_of_cons)]
    dsimp only
    split
    · next hx =>
      rw [charAtPos_eq_iff h (by decide)] at hx
      obtain rfl : u = 120 := UInt16.toNat_inj.mp hx
      exact hex_classified isAlpha h.tail
    split
    · next hdot =>
      rw [charAtPos_eq_iff h (by decide)] at hdot
      obtain rfl : u = 46 := UInt16.toNat_inj.mp hdot
      exact fraction_classified isAlpha (i := [48]) hdecimal h 0
    · next hdot =>
      split
      · exact hfail _
      · split
        · exact hfail _
        · next hdirty =>
          refine Or.inl ⟨.decimal, [48], u :: t, rfl, hdecimal,
            fun hinner => hdirty ((isDirtyEnd_iff isAlpha h).mpr hinner), fun hhead => ?_⟩
          rw [charAtPos_eq_iff h (by decide)] at hdot
          rw [Option.some.inj hhead] at hdot
          exact hdot rfl

/-- Whatever starts with a digit is classified. -/
theorem outcome_classified {st : State} (hu : IsDigit u)
    (h : At st.src st.pos st.end_ (u :: t)) :
    Classified isAlpha (u :: t) st.pos (outcome isAlpha st) := by
  by_cases hzero : u = 48
  · subst hzero
    rw [outcome_of_zero isAlpha h]
    exact zero_classified isAlpha h.tail
  · obtain ⟨ds, t', heq, hds, hend⟩ := exists_digits hu t
    have hhead : ds.head? ≠ some 48 := by
      intro hhead
      cases ds with
      | nil => cases hhead
      | cons v ds =>
        rw [List.cons_append] at heq
        rw [(List.cons.inj heq).1] at hzero
        exact hzero (Option.some.inj hhead)
    have hne : ds ≠ [48] := by
      rintro rfl
      exact hhead rfl
    rw [heq] at h ⊢
    rw [outcome_of_decimal isAlpha (Or.inr ⟨hds, hhead⟩) hne h]
    exact int_classified isAlpha (Or.inr ⟨hds, hhead⟩) hne h.append hend _

/-! ## Nothing past the end is looked at -/

/-- An outcome some units later. -/
def Outcome.shift (n : ℕ) : Outcome → Outcome
  | .err_ pos problem => .err_ (pos + n) problem
  | .okInt pos value => .okInt (pos + n) value
  | .okFloat pos => .okFloat (pos + n)

variable {src' : Text} {pos' end_' : ℕ}

/-- The test for a digit is the same at two places that hold the same unit. -/
theorem same_digit (h : At src pos end_ (u :: t)) (h' : At src' pos' end_' (u :: t)) :
    isDecimalDigit (charAtPos pos src) = isDecimalDigit (charAtPos pos' src') :=
  Bool.eq_iff_iff.mpr ((isDecimalDigit_iff h).trans (isDecimalDigit_iff h').symm)

/-- So is the comparison with a character. -/
theorem same_char (h : At src pos end_ (u :: t)) (h' : At src' pos' end_' (u :: t)) {code : ℕ}
    (hcode : code < 0xD800) : charAtPos pos src = code ↔ charAtPos pos' src' = code :=
  (charAtPos_eq_iff h hcode).trans (charAtPos_eq_iff h' hcode).symm

/-- So is the test for a dirty end. -/
theorem same_dirty (h : At src pos end_ (u :: t)) (h' : At src' pos' end_' (u :: t)) :
    isDirtyEnd isAlpha src pos end_ (charAtPos pos src)
      = isDirtyEnd isAlpha src' pos' end_' (charAtPos pos' src') :=
  Bool.eq_iff_iff.mpr ((isDirtyEnd_iff isAlpha h).trans (isDirtyEnd_iff isAlpha h').symm)

/-- Two outcomes are one, seen from two positions. -/
def Local (pos pos' : ℕ) (o o' : Outcome) : Prop :=
  ∃ r : Outcome, o = r.shift pos ∧ o' = r.shift pos'

theorem local_err (pos pos' : ℕ) (problem : Problem) :
    Local pos pos' (.err_ pos problem) (.err_ pos' problem) :=
  ⟨.err_ 0 problem, by rw [Outcome.shift, Nat.zero_add], by rw [Outcome.shift, Nat.zero_add]⟩

theorem local_okInt (pos pos' : ℕ) (n : ℤ) : Local pos pos' (.okInt pos n) (.okInt pos' n) :=
  ⟨.okInt 0 n, by rw [Outcome.shift, Nat.zero_add], by rw [Outcome.shift, Nat.zero_add]⟩

theorem local_okFloat (pos pos' : ℕ) : Local pos pos' (.okFloat pos) (.okFloat pos') :=
  ⟨.okFloat 0, by rw [Outcome.shift, Nat.zero_add], by rw [Outcome.shift, Nat.zero_add]⟩

/-- Moving an outcome twice moves it by the sum. -/
theorem Outcome.shift_shift (o : Outcome) (m n : ℕ) : (o.shift m).shift n = o.shift (n + m) := by
  cases o <;> simp only [Outcome.shift, Nat.add_assoc, Nat.add_comm n m]

/-- Outcomes that agree from two later positions agree from the earlier ones. -/
theorem Local.later {k : ℕ} {o o' : Outcome} (h : Local (pos + k) (pos' + k) o o') :
    Local pos pos' o o' := by
  obtain ⟨r, rfl, rfl⟩ := h
  exact ⟨r.shift k, (r.shift_shift k pos).symm, (r.shift_shift k pos').symm⟩

theorem chompExponentHelp_local (h : At src pos end_ t) (h' : At src' pos' end_' t) :
    Local pos pos' (chompExponentHelp src pos end_) (chompExponentHelp src' pos' end_') := by
  rw [chompExponentHelp.eq_def src pos, chompExponentHelp.eq_def src' pos']
  induction t generalizing pos pos' with
  | nil =>
    rw [if_pos h.le_of_nil, if_pos h'.le_of_nil]
    exact local_okFloat pos pos'
  | cons u t ih =>
    have hrest := ih h.tail h'.tail
    rw [← chompExponentHelp.eq_def src, ← chompExponentHelp.eq_def src'] at hrest
    rw [if_neg (Nat.not_le.mpr h.lt_of_cons), if_neg (Nat.not_le.mpr h'.lt_of_cons),
      same_digit h h']
    split
    · exact hrest.later
    · exact local_okFloat pos pos'

/-- The exponent's branch looks at the text that is left and at nothing else. -/
theorem chompExponent_local (h : At src pos end_ t) (h' : At src' pos' end_' t) :
    Local pos pos' (chompExponent src pos end_) (chompExponent src' pos' end_') := by
  rw [chompExponent.eq_def src pos, chompExponent.eq_def src' pos']
  cases t with
  | nil =>
    rw [if_pos h.le_of_nil, if_pos h'.le_of_nil]
    exact local_err pos pos' _
  | cons u t =>
    have hsign : (charAtPos pos src = 43 ∨ charAtPos pos src = 45) ↔
        (charAtPos pos' src' = 43 ∨ charAtPos pos' src' = 45) :=
      or_congr (same_char h h' (by decide)) (same_char h h' (by decide))
    rw [if_neg (Nat.not_le.mpr h.lt_of_cons), if_neg (Nat.not_le.mpr h'.lt_of_cons)]
    simp only [same_digit h h', hsign]
    split
    · exact (chompExponentHelp_local h.tail h'.tail).later
    split
    · cases t with
      | nil =>
        rw [if_neg fun hlt => absurd h.tail.le_of_nil (Nat.not_le.mpr hlt.1),
          if_neg fun hlt => absurd h'.tail.le_of_nil (Nat.not_le.mpr hlt.1)]
        exact local_err pos pos' _
      | cons v t =>
        simp only [h.tail.lt_of_cons, h'.tail.lt_of_cons, same_digit h.tail h'.tail, true_and]
        split
        · exact Local.later (k := 2) (chompExponentHelp_local h.tail.tail h'.tail.tail)
        · exact local_err pos pos' _
    · exact local_err pos pos' _

theorem chompFractionHelp_local (h : At src pos end_ t) (h' : At src' pos' end_' t) :
    Local pos pos' (chompFractionHelp isAlpha src pos end_)
      (chompFractionHelp isAlpha src' pos' end_') := by
  rw [chompFractionHelp.eq_def isAlpha src pos, chompFractionHelp.eq_def isAlpha src' pos']
  induction t generalizing pos pos' with
  | nil =>
    rw [if_pos h.le_of_nil, if_pos h'.le_of_nil]
    exact local_okFloat pos pos'
  | cons u t ih =>
    have hrest := ih h.tail h'.tail
    rw [← chompFractionHelp.eq_def isAlpha src, ← chompFractionHelp.eq_def isAlpha src'] at hrest
    have hexp : (charAtPos pos src = 101 ∨ charAtPos pos src = 69) ↔
        (charAtPos pos' src' = 101 ∨ charAtPos pos' src' = 69) :=
      or_congr (same_char h h' (by decide)) (same_char h h' (by decide))
    rw [if_neg (Nat.not_le.mpr h.lt_of_cons), if_neg (Nat.not_le.mpr h'.lt_of_cons)]
    simp only [same_digit h h', hexp, same_dirty isAlpha h h']
    split
    · exact hrest.later
    split
    · exact (chompExponent_local h.tail h'.tail).later
    split
    · exact local_err pos pos' _
    · exact local_okFloat pos pos'

/-- The fraction's branch, the same. -/
theorem chompFraction_local (h : At src pos end_ (u :: t)) (h' : At src' pos' end_' (u :: t))
    (n : ℤ) : Local pos pos' (chompFraction isAlpha src pos end_ n)
      (chompFraction isAlpha src' pos' end_' n) := by
  rw [chompFraction.eq_def isAlpha src pos, chompFraction.eq_def isAlpha src' pos']
  cases t with
  | nil =>
    rw [if_pos h.tail.le_of_nil, if_pos h'.tail.le_of_nil]
    exact local_err pos pos' _
  | cons v t =>
    rw [if_neg (Nat.not_le.mpr h.tail.lt_of_cons), if_neg (Nat.not_le.mpr h'.tail.lt_of_cons)]
    simp only [same_digit h.tail h'.tail]
    split
    · exact Local.later (k := 2) (chompFractionHelp_local isAlpha h.tail.tail h'.tail.tail)
    · exact local_err pos pos' _

theorem charAtPos_sub (h : At src pos end_ (u :: t)) (h' : At src' pos' end_' (u :: t))
    (hdigit : isDecimalDigit (charAtPos pos' src') = true) :
    (charAtPos pos src : ℤ) - 48 = (charAtPos pos' src' : ℤ) - 48 := by
  have hu := ((isDecimalDigit_iff h').mp hdigit).isHexDigit
  rw [charAtPos_of_digit h hu, charAtPos_of_digit h' hu]

/-- The loop over decimal digits, the same. -/
theorem chompInt_local (h : At src pos end_ t) (h' : At src' pos' end_' t) (n : ℤ) :
    Local pos pos' (chompInt isAlpha src pos end_ n) (chompInt isAlpha src' pos' end_' n) := by
  rw [chompInt.eq_def isAlpha src pos, chompInt.eq_def isAlpha src' pos']
  induction t generalizing pos pos' n with
  | nil =>
    rw [if_pos h.le_of_nil, if_pos h'.le_of_nil]
    exact local_okInt pos pos' n
  | cons u t ih =>
    have hexp : (charAtPos pos src = 101 ∨ charAtPos pos src = 69) ↔
        (charAtPos pos' src' = 101 ∨ charAtPos pos' src' = 69) :=
      or_congr (same_char h h' (by decide)) (same_char h h' (by decide))
    have hdot : charAtPos pos src = 46 ↔ charAtPos pos' src' = 46 := same_char h h' (by decide)
    rw [if_neg (Nat.not_le.mpr h.lt_of_cons), if_neg (Nat.not_le.mpr h'.lt_of_cons)]
    simp only [same_digit h h', hexp, hdot, same_dirty isAlpha h h']
    split
    · next hdigit =>
      have hrest := ih h.tail h'.tail (wrap (10 * n + (charAtPos pos' src' - 48)))
      rw [← chompInt.eq_def isAlpha src, ← chompInt.eq_def isAlpha src'] at hrest
      rw [charAtPos_sub h h' hdigit]
      exact hrest.later
    split
    · exact chompFraction_local isAlpha h h' n
    split
    · exact (chompExponent_local h.tail h'.tail).later
    split
    · exact local_err pos pos' _
    · exact local_okInt pos pos' n

theorem chompHexHelp_local (h : At src pos end_ t) (h' : At src' pos' end_' t) (answer n : ℤ) :
    ∃ (k : ℕ) (t' : Text) (v : ℤ), chompHexHelp isAlpha src pos end_ answer n = (pos + k, v) ∧
      chompHexHelp isAlpha src' pos' end_' answer n = (pos' + k, v) ∧
      At src (pos + k) end_ t' ∧ At src' (pos' + k) end_' t' := by
  rw [chompHexHelp.eq_def isAlpha src pos, chompHexHelp.eq_def isAlpha src' pos']
  induction t generalizing pos pos' answer n with
  | nil =>
    rw [if_pos h.le_of_nil, if_pos h'.le_of_nil]
    exact ⟨0, [], answer, rfl, rfl, h, h'⟩
  | cons u t ih =>
    rw [if_neg (Nat.not_le.mpr h.lt_of_cons), if_neg (Nat.not_le.mpr h'.lt_of_cons)]
    simp only [same_dirty isAlpha h h']
    by_cases hu : IsHexDigit u
    · have hv := (hexDigitValue_of h).1 hu
      have hv' := (hexDigitValue_of h').1 hu
      obtain ⟨k, t', v, heq, heq', hat, hat'⟩ := ih h.tail h'.tail
        (wrap (16 * n + digitValue u)) (wrap (16 * n + digitValue u))
      rw [← chompHexHelp.eq_def isAlpha src] at heq
      rw [← chompHexHelp.eq_def isAlpha src'] at heq'
      rw [hv, hv', if_neg (by omega), if_neg (by omega), heq, heq']
      refine ⟨k + 1, t', v, ?_, ?_, ?_, ?_⟩
      · rw [Nat.add_right_comm, Nat.add_assoc]
      · rw [Nat.add_right_comm, Nat.add_assoc]
      · rw [Nat.add_comm k 1, ← Nat.add_assoc]
        exact hat
      · rw [Nat.add_comm k 1, ← Nat.add_assoc]
        exact hat'
    · rw [if_pos ((hexDigitValue_of h).2 hu), if_pos ((hexDigitValue_of h').2 hu)]
      exact ⟨0, u :: t, _, rfl, rfl, h, h'⟩

/-- The branch for hex digits, the same. -/
theorem chompHexInt_local (h : At src pos end_ t) (h' : At src' pos' end_' t) :
    Local pos pos' (chompHexInt isAlpha src pos end_) (chompHexInt isAlpha src' pos' end_') := by
  obtain ⟨k, t', v, heq, heq', hat, hat'⟩ := chompHexHelp_local isAlpha h h' (-1) 0
  rw [chompHexInt.eq_def isAlpha src pos, chompHexInt.eq_def isAlpha src' pos', chompHex, chompHex,
    heq, heq']
  have hbad : (pos + k = pos ∨ (pos + k < end_ ∧
        isDirtyEnd isAlpha src (pos + k) end_ (charAtPos (pos + k) src) = true)) ↔
      (pos' + k = pos' ∨ (pos' + k < end_' ∧
        isDirtyEnd isAlpha src' (pos' + k) end_' (charAtPos (pos' + k) src') = true)) := by
    refine or_congr (by omega) ?_
    cases t' with
    | nil =>
      exact iff_of_false (fun ⟨hlt, _⟩ => absurd hat.le_of_nil (Nat.not_le.mpr hlt))
        (fun ⟨hlt, _⟩ => absurd hat'.le_of_nil (Nat.not_le.mpr hlt))
    | cons u t' =>
      rw [same_dirty isAlpha hat hat', and_iff_right hat.lt_of_cons,
        and_iff_right hat'.lt_of_cons]
  simp only [hbad]
  split
  · exact Local.later (k := k) (local_err _ _ _)
  · exact Local.later (k := k) (local_okInt _ _ _)

/-- The branch for zero, the same. -/
theorem chompZero_local (h : At src pos end_ t) (h' : At src' pos' end_' t) :
    Local pos pos' (chompZero isAlpha src pos end_) (chompZero isAlpha src' pos' end_') := by
  rw [chompZero.eq_def isAlpha src pos, chompZero.eq_def isAlpha src' pos']
  cases t with
  | nil =>
    rw [if_pos h.le_of_nil, if_pos h'.le_of_nil]
    exact local_okInt pos pos' 0
  | cons u t =>
    have hx : charAtPos pos src = 120 ↔ charAtPos pos' src' = 120 := same_char h h' (by decide)
    have hdot : charAtPos pos src = 46 ↔ charAtPos pos' src' = 46 := same_char h h' (by decide)
    rw [if_neg (Nat.not_le.mpr h.lt_of_cons), if_neg (Nat.not_le.mpr h'.lt_of_cons)]
    simp only [same_digit h h', hx, hdot, same_dirty isAlpha h h']
    split
    · exact (chompHexInt_local isAlpha h.tail h'.tail).later
    split
    · exact chompFraction_local isAlpha h h' 0
    split
    · exact local_err pos pos' _
    split
    · exact local_err pos pos' _
    · exact local_okInt pos pos' 0

/-- What is scanned depends on the text before the end only. -/
theorem outcome_local {st st' : State} (hu : IsDigit u) (h : At st.src st.pos st.end_ (u :: t))
    (h' : At st'.src st'.pos st'.end_ (u :: t)) :
    Local st.pos st'.pos (outcome isAlpha st) (outcome isAlpha st') := by
  rw [outcome, outcome, charAtPos_of_digit h hu.isHexDigit, charAtPos_of_digit h' hu.isHexDigit]
  split
  · exact (chompZero_local isAlpha h.tail h'.tail).later
  · exact (chompInt_local isAlpha h.tail h'.tail _).later

/-! ## The parser -/

variable {F x : Type} (toFloat : Text → Option F) (toExpectation : ℕ → ℕ → x)
  (toError : Problem → ℕ → ℕ → x)

/-- What `number` gives on a literal: its value, at the end of its text. -/
def Kind.result (kind : Kind) (st : State) (l : Text) : PStep x (Number F) :=
  match kind with
  | .decimal => .cok (.int (wrap (value .decimal l)) l) (st.advance l.length)
  | .hexadecimal => .cok (.int (wrap (value .hexadecimal l)) l) (st.advance l.length)
  | .fraction | .exponent =>
    match toFloat l with
    | some v => .cok (.float v l) (st.advance l.length)
    | none => .eerr st.row (st.col + l.length) toExpectation

/-- A small sum of digits is its own value, and a larger one is read again from the text. -/
theorem number_int {st : State} {l t : Text} {n : ℤ} {first : UInt16} {rest : Text}
    (hl : l = first :: rest) (hfirst : IsDigit first)
    (h : At st.src st.pos st.end_ (l ++ t))
    (houtcome : outcome isAlpha st = .okInt (st.pos + l.length) n)
    (hliteral : fromLiteral l = some n) :
    number isAlpha toFloat toExpectation toError st = .cok (.int n l) (st.advance l.length) := by
  have htext := h.take
  subst hl
  have hdigit := (isDecimalDigit_iff h).mpr hfirst
  rw [number, if_neg (Nat.not_le.mpr h.lt_of_cons), if_neg (not_not.mpr hdigit), houtcome]
  dsimp only
  rw [Nat.add_sub_cancel_left, htext, hliteral]
  split <;> rfl

/-- A literal whose outcome is a float gives the result of the fractions. -/
theorem number_float {st : State} {l t : Text} {first : UInt16} {rest : Text}
    (hl : l = first :: rest) (hfirst : IsDigit first)
    (h : At st.src st.pos st.end_ (l ++ t))
    (houtcome : outcome isAlpha st = .okFloat (st.pos + l.length)) :
    number isAlpha toFloat toExpectation toError st
      = Kind.result toFloat toExpectation .fraction st l := by
  have htext := h.take
  subst hl
  have hdigit := (isDecimalDigit_iff h).mpr hfirst
  rw [number, if_neg (Nat.not_le.mpr h.lt_of_cons), if_neg (not_not.mpr hdigit), houtcome]
  dsimp only
  rw [Nat.add_sub_cancel_left, htext, Kind.result]
  cases toFloat (first :: rest) <;> rfl

theorem decimal_head {i : Text} (hi : IsDecimal i) : ∃ u t, i = u :: t ∧ IsDigit u := by
  rcases hi with rfl | ⟨⟨hne, hall⟩, -⟩
  · exact ⟨48, [], rfl, by decide⟩
  · cases i with
    | nil => exact absurd rfl hne
    | cons u t => exact ⟨u, t, rfl, hall u (List.mem_cons_self ..)⟩

/-- Every literal starts with a digit. -/
theorem literal_head {kind : Kind} (hl : Literal kind l) : ∃ u t, l = u :: t ∧ IsDigit u := by
  have hfraction : ∀ {l}, IsFraction l → ∃ u t, l = u :: t ∧ IsDigit u := by
    rintro l ⟨i, f, hi, -, rfl⟩
    obtain ⟨u, t, rfl, hu⟩ := decimal_head hi
    exact ⟨u, _, rfl, hu⟩
  cases kind with
  | decimal => exact decimal_head hl
  | hexadecimal =>
    obtain ⟨ds, -, -, rfl⟩ := hl
    exact ⟨48, _, rfl, by decide⟩
  | fraction => exact hfraction hl
  | exponent =>
    obtain ⟨m, e, hm, -, rfl⟩ := hl
    have hhead : ∃ u t, m = u :: t ∧ IsDigit u := hm.elim (fun h => decimal_head h.1) hfraction
    obtain ⟨u, t, rfl, hu⟩ := hhead
    exact ⟨u, _, rfl, hu⟩

/-- What the parser does with the text that is left: a literal with what may follow it is read
    to its end, and gives its value (a float, if `String.toFloat` knows its text); a text that
    starts with a digit and with no such literal is an error inside or just after units that
    are the start of some literal; every other text is none; and what is scanned depends on
    nothing at or past the end. -/
theorem number_reads {st : State} (inside : st.end_ ≤ st.src.length) :
    (∀ kind l t, st.rest = l ++ t → Literal kind l → Ends isAlpha kind t →
      number isAlpha toFloat toExpectation toError st
        = Kind.result toFloat toExpectation kind st l) ∧
    (∀ u t, st.rest = u :: t → IsDigit u →
      (¬ ∃ kind l t, st.rest = l ++ t ∧ Literal kind l ∧ Ends isAlpha kind t) →
      ∃ k problem, outcome isAlpha st = .err_ (st.pos + k) problem ∧
        number isAlpha toFloat toExpectation toError st
          = .cerr st.row (st.col + k) (toError problem) ∧
        0 < k ∧ k ≤ st.rest.length ∧ ∃ kind w, Literal kind (st.rest.take k ++ w)) ∧
    ((¬ ∃ u t, st.rest = u :: t ∧ IsDigit u) →
      number isAlpha toFloat toExpectation toError st = .eerr st.row st.col toExpectation) ∧
    ∀ st' : State, st'.end_ ≤ st'.src.length → st'.rest = st.rest →
      (∃ u t, st.rest = u :: t ∧ IsDigit u) →
      Local st.pos st'.pos (outcome isAlpha st) (outcome isAlpha st') := by
  have hat : At st.src st.pos st.end_ st.rest := ⟨inside, rfl⟩
  refine ⟨fun kind l t hrest hl ends => ?_, fun u t hrest hu hnone => ?_, fun hnot => ?_,
    fun st' inside' hsame ⟨u, t, hrest, hu⟩ => ?_⟩
  · rw [hrest] at hat
    obtain ⟨first, rest, hfirst, hdigit⟩ := literal_head hl
    have houtcome := outcome_of_literal isAlpha hl hat ends
    -- the two integer kinds have a value, the two float kinds ask `toFloat`
    cases kind with
    | decimal =>
      exact number_int isAlpha toFloat toExpectation toError hfirst hdigit hat houtcome
        (fromLiteral_decimal hl)
    | hexadecimal =>
      exact number_int isAlpha toFloat toExpectation toError hfirst hdigit hat houtcome
        (fromLiteral_hexadecimal hl)
    | fraction =>
      exact number_float isAlpha toFloat toExpectation toError hfirst hdigit hat houtcome
    | exponent =>
      exact number_float isAlpha toFloat toExpectation toError hfirst hdigit hat houtcome
  · rw [hrest] at hat hnone ⊢
    rcases outcome_classified isAlpha hu hat with hliteral | ⟨k, problem, heq, hpos, hle, hviable⟩
    · exact absurd hliteral hnone
    · have hdigit := (isDecimalDigit_iff hat).mpr hu
      refine ⟨k, problem, heq, ?_, hpos, hle, hviable⟩
      rw [number, if_neg (Nat.not_le.mpr hat.lt_of_cons), if_neg (not_not.mpr hdigit), heq]
      dsimp only
      rw [Nat.add_sub_cancel_left]
  · rw [number]
    cases hrest : st.rest with
    | nil =>
      rw [hrest] at hat
      rw [if_pos hat.le_of_nil]
    | cons u t =>
      rw [hrest] at hat
      have hdigit : ¬ isDecimalDigit (charAtPos st.pos st.src) = true := fun hd =>
        hnot ⟨u, t, hrest, (isDecimalDigit_iff hat).mp hd⟩
      rw [if_neg (Nat.not_le.mpr hat.lt_of_cons), if_pos hdigit]
  · have hat' : At st'.src st'.pos st'.end_ (u :: t) := ⟨inside', hsame.trans hrest⟩
    rw [hrest] at hat
    exact outcome_local isAlpha hu hat hat'

/-- `12` before a blank is read. -/
theorem number_twelve :
    number (fun _ => false) (fun _ => some ()) (fun _ _ => none) (fun p _ _ => some p)
        (initialState [49, 50, 32])
      = Kind.result (fun _ => some ()) (fun _ _ => none) .decimal (initialState [49, 50, 32])
        [49, 50] := by
  have hliteral : Literal .decimal [49, 50] :=
    Or.inr ⟨by simp [Digits, IsDigit], by decide⟩
  have hblank : ¬ StartsInner (fun _ => false) [32] := by
    rintro ⟨code, rest, heq, hinner⟩
    obtain ⟨rfl, -⟩ := Prod.mk.inj (Option.some.inj heq)
    simp [IsInner] at hinner
  have inside : (initialState [49, 50, 32]).end_ ≤ (initialState [49, 50, 32]).src.length := le_rfl
  exact (number_reads (fun _ => false) (fun _ => some ()) (fun _ _ => none) (fun p _ _ => some p)
    inside).1 .decimal [49, 50] [32] rfl hliteral ⟨hblank, by decide⟩

/-- `1e5` before an `x` is read, though it runs into the letter, and `1` before a dot is not,
    though it runs into no letter. -/
theorem number_exponent_dot :
    number (fun _ => false) (fun _ => some ()) (fun _ _ => none) (fun p _ _ => some p)
        (initialState [49, 101, 53, 120])
      = .cok (.float () [49, 101, 53]) ((initialState [49, 101, 53, 120]).advance 3) ∧
    StartsInner (fun _ => false) [120] ∧
    number (fun _ => false) (fun _ => some ()) (fun _ _ => none) (fun p _ _ => some p)
        (initialState [49, 46]) = .cerr 1 2 (fun _ _ => some (.NumberDot 1)) ∧
    Literal .decimal [49] ∧ ¬ StartsInner (fun _ => false) [46] := by
  have hdigits : Digits [49] ∧ Digits [53] := by simp [Digits, IsDigit]
  have hone : IsDecimal [49] := Or.inr ⟨hdigits.1, by decide⟩
  have hliteral : Literal .exponent [49, 101, 53] :=
    ⟨[49], [101, 53], Or.inl ⟨hone, by decide⟩,
      ⟨101, [], [53], Or.inl rfl, Or.inl rfl, hdigits.2, rfl⟩, rfl⟩
  have hdot : ¬ StartsInner (fun _ => false) [46] := by
    rintro ⟨code, rest, heq, hinner⟩
    obtain ⟨rfl, -⟩ := Prod.mk.inj (Option.some.inj heq)
    simp [IsInner] at hinner
  have inside : (initialState [49, 101, 53, 120]).end_ ≤
      (initialState [49, 101, 53, 120]).src.length := le_rfl
  have hread := (number_reads (fun _ => false) (fun _ => some ()) (fun _ _ => none)
    (fun p _ _ => some p) inside).1 .exponent [49, 101, 53] [120] rfl hliteral
    (fun u hu => by obtain rfl := Option.some.inj hu; simp [IsDigit])
  have hx : IsInner (fun _ => false) 120 := Or.inl (by decide)
  refine ⟨hread, ⟨120, [], rfl, hx⟩, ?_, hone, hdot⟩
  have hend : chompInt (fun _ => false) [49, 46] 1 2 1 = .err_ 1 (.NumberDot 1) := by
    rw [chompInt]
    rfl
  have houtcome : outcome (fun _ => false) (initialState [49, 46]) = .err_ 1 (.NumberDot 1) := hend
  have hnumber : number (fun _ => false) (fun _ => some ()) (fun _ _ => none) (fun p _ _ => some p)
      (initialState [49, 46]) = match outcome (fun _ => false) (initialState [49, 46]) with
      | .err_ newPos problem => .cerr 1 (1 + (newPos - 0)) (fun _ _ => some problem)
      | _ => .cerr 1 1 (fun _ _ => none) := by
    rw [number, houtcome]
    rfl
  rw [hnumber, houtcome]

end

end ParseNumber

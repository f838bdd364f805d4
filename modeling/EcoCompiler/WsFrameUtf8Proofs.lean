import EcoCompiler.WsFrame

/-! # The strict validator accepts UTF-8

    `Follows v t` says that the bytes `t` finish the character the validator `v`
    is inside and go on as valid UTF-8.  A byte moves it from one state to the
    next, so after any input:

    * `feed_complete_iff`: the input is valid UTF-8 exactly when the validator is
      complete;
    * `feed_ok_iff`: it can still be continued to valid UTF-8 exactly when the
      validator has not failed. -/

namespace WsFrame

open Utf8Spec

/-! ## The first character of a valid sequence -/

theorem valid_cons_one {c : UInt8} {t : List UInt8} (h : c.toNat < 0x80) :
    Valid (c :: t) ↔ Valid t := by
  have hd : decodeOne (c :: t) = some (c.toNat, t) := if_pos h
  rw [valid_iff_decodeOne (List.cons_ne_nil c t), hd]
  constructor
  · rintro ⟨n, rest, heq, hv⟩
    obtain ⟨-, rfl⟩ := Prod.mk.inj (Option.some.inj heq)
    exact hv
  · intro hv
    exact ⟨c.toNat, t, rfl, hv⟩

/-- What a two-byte character needs of the bytes after its lead. -/
theorem valid_cons_two {c : UInt8} {t : List UInt8} (hlo : 0xC0 ≤ c.toNat)
    (hhi : c.toNat < 0xE0) :
    Valid (c :: t) ↔ ∃ c2 r, t = c2 :: r
      ∧ (IsTail c2 ∧ 0x80 ≤ (c.toNat - 0xC0) * 0x40 + c2.toNat % 0x40) ∧ Valid r := by
  have hd : decodeOne (c :: t) = decodeTwo c t := by
    rw [decodeOne, if_neg (Nat.not_lt.mpr (Nat.le_trans (by decide) hlo)),
      if_neg (Nat.not_lt.mpr hlo), if_pos hhi]
  rw [valid_iff_decodeOne (List.cons_ne_nil c t), hd]
  constructor
  · rintro ⟨n, rest, heq, hv⟩
    rcases t with _ | ⟨c2, r⟩
    · cases heq
    · rw [decodeTwo] at heq
      split at heq
      · next hok =>
          obtain ⟨-, rfl⟩ := Prod.mk.inj (Option.some.inj heq)
          exact ⟨c2, r, rfl, hok, hv⟩
      · cases heq
  · rintro ⟨c2, r, rfl, hok, hv⟩
    exact ⟨_, r, if_pos hok, hv⟩

/-- What a three-byte character needs of the bytes after its lead. -/
theorem valid_cons_three {c : UInt8} {t : List UInt8} (hlo : 0xE0 ≤ c.toNat)
    (hhi : c.toNat < 0xF0) :
    Valid (c :: t) ↔ ∃ c2 c3 r, t = c2 :: c3 :: r
      ∧ (IsTail c2 ∧ IsTail c3 ∧ 0x800 ≤ threeValue c c2 c3
          ∧ IsScalar (threeValue c c2 c3)) ∧ Valid r := by
  have hd : decodeOne (c :: t) = decodeThree c t := by
    rw [decodeOne, if_neg (Nat.not_lt.mpr (Nat.le_trans (by decide) hlo)),
      if_neg (Nat.not_lt.mpr (Nat.le_trans (by decide) hlo)),
      if_neg (Nat.not_lt.mpr hlo), if_pos hhi]
  rw [valid_iff_decodeOne (List.cons_ne_nil c t), hd]
  constructor
  · rintro ⟨n, rest, heq, hv⟩
    rcases t with _ | ⟨c2, _ | ⟨c3, r⟩⟩
    · cases heq
    · cases heq
    · rw [decodeThree] at heq
      split at heq
      · next hok =>
          obtain ⟨-, rfl⟩ := Prod.mk.inj (Option.some.inj heq)
          exact ⟨c2, c3, r, rfl, hok, hv⟩
      · cases heq
  · rintro ⟨c2, c3, r, rfl, hok, hv⟩
    exact ⟨_, r, if_pos hok, hv⟩

/-- What a four-byte character needs of the bytes after its lead. -/
theorem valid_cons_four {c : UInt8} {t : List UInt8} (hlo : 0xF0 ≤ c.toNat)
    (hhi : c.toNat < 0xF8) :
    Valid (c :: t) ↔ ∃ c2 c3 c4 r, t = c2 :: c3 :: c4 :: r
      ∧ (IsTail c2 ∧ IsTail c3 ∧ IsTail c4 ∧ 0x10000 ≤ fourValue c c2 c3 c4
          ∧ IsScalar (fourValue c c2 c3 c4)) ∧ Valid r := by
  have hd : decodeOne (c :: t) = decodeFour c t := by
    rw [decodeOne, if_neg (Nat.not_lt.mpr (Nat.le_trans (by decide) hlo)),
      if_neg (Nat.not_lt.mpr (Nat.le_trans (by decide) hlo)),
      if_neg (Nat.not_lt.mpr (Nat.le_trans (by decide) hlo)),
      if_neg (Nat.not_lt.mpr hlo), if_pos hhi]
  rw [valid_iff_decodeOne (List.cons_ne_nil c t), hd]
  constructor
  · rintro ⟨n, rest, heq, hv⟩
    rcases t with _ | ⟨c2, _ | ⟨c3, _ | ⟨c4, r⟩⟩⟩
    · cases heq
    · cases heq
    · cases heq
    · rw [decodeFour] at heq
      split at heq
      · next hok =>
          obtain ⟨-, rfl⟩ := Prod.mk.inj (Option.some.inj heq)
          exact ⟨c2, c3, c4, r, rfl, hok, hv⟩
      · cases heq
  · rintro ⟨c2, c3, c4, r, rfl, hok, hv⟩
    exact ⟨_, r, if_pos hok, hv⟩

/-- No character starts with a continuation byte or a byte from `0xF8` on. -/
theorem not_valid_cons {c : UInt8} {t : List UInt8}
    (h : (0x80 ≤ c.toNat ∧ c.toNat < 0xC0) ∨ 0xF8 ≤ c.toNat) : ¬ Valid (c :: t) := by
  rw [valid_iff_decodeOne (List.cons_ne_nil c t)]
  rintro ⟨n, rest, heq, -⟩
  rw [decodeOne] at heq
  split_ifs at heq <;> omega

/-! ## What may follow a state -/

/-- `need` continuation bytes, the first between `lo` and `hi`, then valid UTF-8. -/
def Tails : Nat → Nat → Nat → List UInt8 → Prop
  | 0, _, _, t => Valid t
  | need + 1, lo, hi, t =>
      ∃ b r, t = b :: r ∧ (lo ≤ b.toNat ∧ b.toNat ≤ hi) ∧ Tails need 0x80 0xBF r

/-- The bytes `t` may follow what the validator has seen. -/
def Follows (v : Utf8Validator) (t : List UInt8) : Prop :=
  v.failed = false ∧ Tails v.need v.lo v.hi t

private theorem follows_of_need {v : Utf8Validator} (hv : v.failed = false) (need lo hi : Nat)
    (t : List UInt8) :
    Follows { v with need := need, lo := lo, hi := hi } t ↔ Tails need lo hi t :=
  ⟨fun h => h.2, fun h => ⟨hv, h⟩⟩

private theorem tails_one (t : List UInt8) (c : UInt8) (hlo : 0xC2 ≤ c.toNat)
    (hhi : c.toNat ≤ 0xDF) : Tails 1 0x80 0xBF t ↔ Valid (c :: t) := by
  rw [valid_cons_two (by omega) (by omega)]
  constructor
  · rintro ⟨b, r, rfl, hb, hr⟩
    refine ⟨b, r, rfl, ⟨⟨by omega, by omega⟩, by omega⟩, hr⟩
  · rintro ⟨b, r, rfl, ⟨⟨hb, hb'⟩, -⟩, hr⟩
    exact ⟨b, r, rfl, ⟨by omega, by omega⟩, hr⟩

/-- The range of the second byte says which three-byte forms are overlong or
    surrogates. -/
private theorem tails_two (t : List UInt8) (c : UInt8) (lo hi : Nat)
    (hlo : 0xE0 ≤ c.toNat) (hhi : c.toNat < 0xF0)
    (hrange : ∀ c2 : UInt8, (lo ≤ c2.toNat ∧ c2.toNat ≤ hi) ↔
      0x80 ≤ c2.toNat ∧ c2.toNat < 0xC0 ∧ (c.toNat = 0xE0 → 0xA0 ≤ c2.toNat)
        ∧ (c.toNat = 0xED → c2.toNat < 0xA0)) :
    Tails 2 lo hi t ↔ Valid (c :: t) := by
  rw [valid_cons_three hlo hhi]
  constructor
  · rintro ⟨c2, r2, rfl, hc2, c3, r, rfl, hc3, hr⟩
    have hc2' := (hrange c2).mp hc2
    refine ⟨c2, c3, r, rfl, ⟨⟨hc2'.1, hc2'.2.1⟩, ⟨hc3.1, by omega⟩, ?_, ?_⟩, hr⟩
    · rw [threeValue]
      omega
    · rw [threeValue, IsScalar]
      omega
  · rintro ⟨c2, c3, r, rfl, ⟨⟨h1, h2⟩, ⟨h3, h4⟩, h5, h6⟩, hr⟩
    rw [threeValue] at h5
    rw [threeValue, IsScalar] at h6
    refine ⟨c2, c3 :: r, rfl, (hrange c2).mpr ⟨h1, h2, ?_, ?_⟩, c3, r, rfl, ⟨h3, by omega⟩, hr⟩
    · intro hc
      omega
    · intro hc
      omega

/-- The range of the second byte says which four-byte forms are overlong or above
    the last code point. -/
private theorem tails_three (t : List UInt8) (c : UInt8) (lo hi : Nat)
    (hlo : 0xF0 ≤ c.toNat) (hhi : c.toNat ≤ 0xF4)
    (hrange : ∀ c2 : UInt8, (lo ≤ c2.toNat ∧ c2.toNat ≤ hi) ↔
      0x80 ≤ c2.toNat ∧ c2.toNat < 0xC0 ∧ (c.toNat = 0xF0 → 0x90 ≤ c2.toNat)
        ∧ (c.toNat = 0xF4 → c2.toNat < 0x90)) :
    Tails 3 lo hi t ↔ Valid (c :: t) := by
  rw [valid_cons_four hlo (by omega)]
  constructor
  · rintro ⟨c2, r2, rfl, hc2, c3, r3, rfl, hc3, c4, r, rfl, hc4, hr⟩
    have hc2' := (hrange c2).mp hc2
    refine ⟨c2, c3, c4, r, rfl, ⟨⟨hc2'.1, hc2'.2.1⟩, ⟨hc3.1, by omega⟩, ⟨hc4.1, by omega⟩,
      ?_, ?_⟩, hr⟩
    · rw [fourValue]
      omega
    · rw [fourValue, IsScalar]
      omega
  · rintro ⟨c2, c3, c4, r, rfl, ⟨⟨h1, h2⟩, ⟨h3, h4⟩, ⟨h5, h6⟩, h7, h8⟩, hr⟩
    rw [fourValue] at h7
    rw [fourValue, IsScalar] at h8
    refine ⟨c2, c3 :: c4 :: r, rfl, (hrange c2).mpr ⟨h1, h2, ?_, ?_⟩, c3, c4 :: r, rfl,
      ⟨h3, by omega⟩, c4, r, rfl, ⟨h5, by omega⟩, hr⟩
    · intro hc
      omega
    · intro hc
      omega

/-- A lead byte that the validator refuses starts no valid sequence. -/
private theorem not_valid_of_refused {b : UInt8} {t : List UInt8}
    (h : (0x80 ≤ b.toNat ∧ b.toNat < 0xC2) ∨ 0xF5 ≤ b.toNat) : ¬ Valid (b :: t) := by
  rcases h with ⟨h1, h2⟩ | h1
  · rcases Nat.lt_or_ge b.toNat 0xC0 with h3 | h3
    · exact not_valid_cons (Or.inl ⟨h1, h3⟩)
    · -- `C0` and `C1` would start an overlong form
      rw [valid_cons_two h3 (by omega)]
      rintro ⟨c2, r, -, ⟨-, hlow⟩, -⟩
      omega
  · rcases Nat.lt_or_ge b.toNat 0xF8 with h3 | h3
    · rw [valid_cons_four (by omega) h3]
      rintro ⟨c2, c3, c4, r, -, ⟨-, -, -, -, hsc⟩, -⟩
      rw [fourValue, IsScalar] at hsc
      omega
    · exact not_valid_cons (Or.inr h3)

/-- A byte at the start of a character. -/
private theorem follows_lead {v : Utf8Validator} (hv : v.failed = false) (hneed : v.need = 0)
    (b : UInt8) (t : List UInt8) : Follows (v.step b) t ↔ Valid (b :: t) := by
  rw [Utf8Validator.step, if_pos hneed]
  simp only [UInt8.lt_iff_toNat_lt, UInt8.le_iff_toNat_le, ← UInt8.toNat_inj,
    UInt8.reduceToNat]
  split_ifs with h1 h2 h3 h4 h5 h6 h7 h8
  · rw [valid_cons_one h1, Follows, hneed]
    exact ⟨fun h => h.2, fun h => ⟨hv, h⟩⟩
  · rw [follows_of_need hv]
    exact tails_one t b h2.1 h2.2
  · rw [follows_of_need hv]
    exact tails_two t b _ _ (by omega) (by omega) (fun c2 => by omega)
  · rw [follows_of_need hv]
    exact tails_two t b _ _ (by omega) (by omega) (fun c2 => by omega)
  · rw [follows_of_need hv]
    exact tails_two t b _ _ (by omega) (by omega) (fun c2 => by omega)
  · rw [follows_of_need hv]
    exact tails_three t b _ _ (by omega) (by omega) (fun c2 => by omega)
  · rw [follows_of_need hv]
    exact tails_three t b _ _ (by omega) (by omega) (fun c2 => by omega)
  · rw [follows_of_need hv]
    exact tails_three t b _ _ (by omega) (by omega) (fun c2 => by omega)
  · refine ⟨fun h => Bool.noConfusion h.1, fun h => ?_⟩
    have hb := b.toNat_lt
    exact absurd h (not_valid_of_refused (by omega))

/-- What may follow moves with the byte taken. -/
theorem follows_step {v : Utf8Validator} (hv : v.failed = false) (b : UInt8)
    (t : List UInt8) : Follows (v.step b) t ↔ Follows v (b :: t) := by
  cases hneed : v.need with
  | zero =>
      rw [follows_lead hv hneed, Follows, hneed]
      exact ⟨fun h => ⟨hv, h⟩, fun h => h.2⟩
  | succ need =>
      have hne : ¬ v.need = 0 := by
        rw [hneed]
        exact Nat.succ_ne_zero need
      rw [Utf8Validator.step, if_neg hne]
      by_cases hb : b.toNat < v.lo ∨ v.hi < b.toNat
      · rw [if_pos hb, Follows, Follows, hneed]
        refine ⟨fun h => Bool.noConfusion h.1, ?_⟩
        rintro ⟨-, b', r, heq, hrange, -⟩
        obtain ⟨rfl, -⟩ := List.cons.inj heq
        omega
      · rw [if_neg hb, follows_of_need hv, Follows, hneed, Nat.add_sub_cancel]
        constructor
        · intro h
          exact ⟨hv, b, t, rfl, ⟨by omega, by omega⟩, h⟩
        · rintro ⟨-, b', r, heq, -, h⟩
          obtain ⟨-, rfl⟩ := List.cons.inj heq
          exact h

/-! ## Whole inputs -/

theorem follows_feed (v : Utf8Validator) (bs t : List UInt8) :
    Follows (v.feed bs) t ↔ Follows v (bs ++ t) := by
  induction bs generalizing v with
  | nil => exact Iff.rfl
  | cons b bs ih =>
      rw [Utf8Validator.feed]
      by_cases hv : v.failed = true
      · rw [if_pos hv]
        refine ⟨fun h => absurd (h.1.symm.trans hv) (by decide),
          fun h => absurd (h.1.symm.trans hv) (by decide)⟩
      · have hv' : v.failed = false := Bool.not_eq_true _ ▸ hv
        rw [if_neg hv, ih, follows_step hv']
        exact Iff.rfl

theorem follows_start (t : List UInt8) : Follows {} t ↔ Valid t :=
  ⟨fun h => h.2, fun h => ⟨rfl, h⟩⟩

/-- The validator is complete exactly after valid UTF-8. -/
theorem feed_complete_iff (bs : List UInt8) :
    (Utf8Validator.feed {} bs).complete = true ↔ Valid bs := by
  rw [← follows_start, ← List.append_nil bs, ← follows_feed, List.append_nil]
  rw [Utf8Validator.complete, Bool.and_eq_true, beq_iff_eq, Bool.not_eq_true']
  constructor
  · rintro ⟨hneed, hf⟩
    refine ⟨hf, ?_⟩
    rw [hneed]
    exact valid_nil
  · rintro ⟨hf, ht⟩
    refine ⟨?_, hf⟩
    cases hneed : (Utf8Validator.feed {} bs).need with
    | zero => rfl
    | succ need =>
        rw [hneed] at ht
        obtain ⟨b, r, heq, -⟩ := ht
        cases heq

/-- The range of the next continuation byte is never empty. -/
private theorem range_step (v : Utf8Validator) (b : UInt8) (h : v.lo ≤ v.hi ∧ v.hi < 256) :
    (v.step b).lo ≤ (v.step b).hi ∧ (v.step b).hi < 256 := by
  rw [Utf8Validator.step]
  split_ifs
  all_goals first | exact h | simp

private theorem range_feed (v : Utf8Validator) (bs : List UInt8)
    (h : v.lo ≤ v.hi ∧ v.hi < 256) : (v.feed bs).lo ≤ (v.feed bs).hi ∧ (v.feed bs).hi < 256 := by
  induction bs generalizing v with
  | nil => exact h
  | cons b bs ih =>
      rw [Utf8Validator.feed]
      split
      · exact h
      · exact ih _ (range_step v b h)

private theorem tails_inhabited (need lo hi : Nat) (h : lo ≤ hi ∧ hi < 256) :
    ∃ t, Tails need lo hi t := by
  induction need generalizing lo hi with
  | zero => exact ⟨[], valid_nil⟩
  | succ need ih =>
      obtain ⟨t, ht⟩ := ih 0x80 0xBF ⟨by decide, by decide⟩
      have hb : (UInt8.ofNat lo).toNat = lo := by
        rw [UInt8.toNat_ofNat']
        exact Nat.mod_eq_of_lt (by omega)
      exact ⟨UInt8.ofNat lo :: t, UInt8.ofNat lo, t, rfl, by rw [hb]; exact ⟨Nat.le_refl lo, h.1⟩,
        ht⟩

/-- The bytes can be continued to valid UTF-8. -/
def ValidPrefix (bs : List UInt8) : Prop := ∃ t, Valid (bs ++ t)

/-- The validator has failed exactly when no continuation is valid. -/
theorem feed_ok_iff (bs : List UInt8) :
    (Utf8Validator.feed {} bs).failed = false ↔ ValidPrefix bs := by
  constructor
  · intro hf
    obtain ⟨t, ht⟩ := tails_inhabited (Utf8Validator.feed {} bs).need _ _
      (range_feed {} bs ⟨by decide, by decide⟩)
    exact ⟨t, (follows_start _).mp ((follows_feed {} bs t).mp ⟨hf, ht⟩)⟩
  · rintro ⟨t, ht⟩
    exact ((follows_feed {} bs t).mpr ((follows_start _).mpr ht)).1

end WsFrame

import EcoCompiler.Utf8Spec

/-! # Lossy UTF-8, independent of any program

    Decoding and encoding that replace what cannot be converted.

    * `decodeLossy` — one U+FFFD for each maximal subpart of an ill-formed sequence;
    * `decodeLossy_encode`, `decodeLossy_cut`, `decodeLossy_truncated`, `decodeLossy_bad`:
      what it reads at the start of a sequence, case by case;
    * `Completes` — the bytes that finish an encoding that has begun;
    * `decodeUtf8` — the same after one leading byte order mark;
    * `utf8Lossy` — the UTF-8 form of a UTF-16 sequence, unpaired surrogates replaced. -/

namespace Utf8Spec

/-- U+FFFD REPLACEMENT CHARACTER. -/
def replacement : ℕ := 0xFFFD

/-- The bytes begin the encoding of a scalar value and do not end it. -/
def Truncated (p : List UInt8) : Prop :=
  ∃ n t, IsScalar n ∧ t ≠ [] ∧ encodeCodePoint n = p ++ t

open Classical in
/-- The length of the maximal subpart at the start of an ill-formed sequence: its longest
    prefix that begins an encoding, or one byte. -/
noncomputable def maximalSubpart (bs : List UInt8) : ℕ :=
  max 1 (Nat.findGreatest (fun k => Truncated (bs.take k)) bs.length)

/-- The code points of a byte sequence, each maximal subpart that cannot be decoded being
    read as one U+FFFD. -/
noncomputable def decodeLossy : List UInt8 → List ℕ
  | [] => []
  | b :: bs =>
      match h : decodeOne (b :: bs) with
      | some (n, rest) => n :: decodeLossy rest
      | none => replacement :: decodeLossy ((b :: bs).drop (maximalSubpart (b :: bs)))
termination_by bs => bs.length
decreasing_by
  · have := decodeOne_length h
    have := codePointWidth_pos n
    omega
  · have : 1 ≤ maximalSubpart (b :: bs) := le_max_left ..
    rw [List.length_drop, List.length_cons]
    omega

@[simp] theorem decodeLossy_nil : decodeLossy [] = [] := by rw [decodeLossy]

theorem encodeCodePoint_ne_nil (n : ℕ) : encodeCodePoint n ≠ [] := by
  intro h
  have := codePointWidth_pos n
  rw [← encodeCodePoint_length, h] at this
  exact absurd this (by simp)

/-- A scalar value's encoding is read whole. -/
theorem decodeLossy_encode {n : ℕ} (hn : IsScalar n) (rest : List UInt8) :
    decodeLossy (encodeCodePoint n ++ rest) = n :: decodeLossy rest := by
  have hd := decodeOne_encode hn rest
  cases e : encodeCodePoint n ++ rest with
  | nil => exact absurd (List.append_eq_nil_iff.mp e).1 (encodeCodePoint_ne_nil n)
  | cons b bs =>
      rw [e] at hd
      rw [decodeLossy]
      split
      · next m r h =>
        rw [hd] at h
        obtain ⟨rfl, rfl⟩ := Prod.mk.inj (Option.some.inj h)
        rfl
      · next h => exact absurd (hd.symm.trans h) (by simp)

/-- No encoding goes on past another one. -/
theorem encodeCodePoint_unextended {m n : ℕ} {t : List UInt8} (hm : IsScalar m) (hn : IsScalar n)
    (h : encodeCodePoint n = encodeCodePoint m ++ t) : t = [] := by
  have h1 := decodeOne_encode hn []
  rw [List.append_nil, h, decodeOne_encode hm t] at h1
  exact (Prod.mk.inj (Option.some.inj h1)).2

theorem Truncated.decodeOne_eq_none {p : List UInt8} (h : Truncated p) : decodeOne p = none := by
  obtain ⟨n, t, hn, ht, e⟩ := h
  cases hd : decodeOne p with
  | none => rfl
  | some mr =>
      obtain ⟨m, r⟩ := mr
      obtain ⟨hm, rfl⟩ := decodeOne_sound hd
      rw [List.append_assoc] at e
      exact absurd (List.append_eq_nil_iff.mp (encodeCodePoint_unextended hm hn e)).2 ht

/-- A sequence that decodes as nothing loses its maximal subpart. -/
theorem decodeLossy_none {bs : List UInt8} (hne : bs ≠ []) (h : decodeOne bs = none) :
    decodeLossy bs = replacement :: decodeLossy (bs.drop (maximalSubpart bs)) := by
  cases bs with
  | nil => exact absurd rfl hne
  | cons b bs =>
      rw [decodeLossy]
      split
      · next h' => exact absurd (h.symm.trans h') (by simp)
      · rfl

/-- The maximal subpart of a sequence whose prefix `p` begins an encoding that the byte
    after `p`, if there is one, does not continue. -/
theorem maximalSubpart_eq {p rest : List UInt8} (hp : p ≠ []) (trunc : Truncated p)
    (stop : ∀ b r, rest = b :: r → ∀ n t, IsScalar n → encodeCodePoint n ≠ p ++ b :: t) :
    maximalSubpart (p ++ rest) = p.length := by
  classical
  have hlen : 1 ≤ p.length := List.length_pos_of_ne_nil hp
  have hgreatest : Nat.findGreatest (fun k => Truncated ((p ++ rest).take k))
      (p ++ rest).length = p.length := by
    rw [Nat.findGreatest_eq_iff]
    refine ⟨by rw [List.length_append]; omega, fun _ => by rwa [List.take_left], ?_⟩
    rintro k hk hle ⟨n, t, hn, -, e⟩
    cases rest with
    | nil =>
        rw [List.append_nil] at hle
        omega
    | cons b r =>
        rw [List.take_append, List.take_of_length_le hk.le,
          show k - p.length = (k - p.length - 1) + 1 by omega, List.take_succ_cons,
          List.append_assoc] at e
        exact stop b r rfl n _ hn e
  rw [maximalSubpart, hgreatest]
  exact max_eq_right hlen

/-- The end of the input cuts an encoding short: one U+FFFD. -/
theorem decodeLossy_truncated {p : List UInt8} (hp : p ≠ []) (trunc : Truncated p) :
    decodeLossy p = [replacement] := by
  have hmax : maximalSubpart (p ++ []) = p.length :=
    maximalSubpart_eq hp trunc (fun b r h => by cases h)
  rw [List.append_nil] at hmax
  rw [decodeLossy_none hp trunc.decodeOne_eq_none, hmax, List.drop_length, decodeLossy_nil]

/-- A byte that does not continue the encoding begun cuts it: one U+FFFD, and the byte is
    read again. -/
theorem decodeLossy_cut {p rest : List UInt8} {b : UInt8} (hp : p ≠ []) (trunc : Truncated p)
    (stop : ∀ n t, IsScalar n → encodeCodePoint n ≠ p ++ b :: t) :
    decodeLossy (p ++ b :: rest) = replacement :: decodeLossy (b :: rest) := by
  have hnone : decodeOne (p ++ b :: rest) = none := by
    cases hd : decodeOne (p ++ b :: rest) with
    | none => rfl
    | some nr =>
        obtain ⟨n, r⟩ := nr
        obtain ⟨hn, e⟩ := decodeOne_sound hd
        rcases List.append_eq_append_iff.mp e with ⟨t, ht, hr⟩ | ⟨t, ht, hr⟩
        · cases t with
          | nil =>
              obtain ⟨m, u, hm, hu, e'⟩ := trunc
              rw [List.append_nil] at ht
              rw [← ht] at e'
              exact absurd (encodeCodePoint_unextended hn hm e') hu
          | cons c t =>
              rw [List.cons_append] at hr
              obtain ⟨rfl, -⟩ := List.cons.inj hr
              exact absurd ht (stop n t hn)
        · obtain ⟨m, u, hm, hu, e'⟩ := trunc
          rw [ht, List.append_assoc] at e'
          exact absurd (List.append_eq_nil_iff.mp (encodeCodePoint_unextended hn hm e')).2 hu
  have hmax : maximalSubpart (p ++ b :: rest) = p.length :=
    maximalSubpart_eq hp trunc
      (fun c r h => by obtain ⟨rfl, -⟩ := List.cons.inj h; exact stop)
  rw [decodeLossy_none (by simp) hnone, hmax, List.drop_left]

/-- A byte that begins no encoding: one U+FFFD. -/
theorem decodeLossy_bad {b : UInt8} {rest : List UInt8}
    (stop : ∀ n t, IsScalar n → encodeCodePoint n ≠ b :: t) :
    decodeLossy (b :: rest) = replacement :: decodeLossy rest := by
  classical
  have hnone : decodeOne (b :: rest) = none := by
    cases hd : decodeOne (b :: rest) with
    | none => rfl
    | some nr =>
        obtain ⟨n, r⟩ := nr
        obtain ⟨hn, e⟩ := decodeOne_sound hd
        cases he : encodeCodePoint n with
        | nil => exact absurd he (encodeCodePoint_ne_nil n)
        | cons c t =>
            rw [he, List.cons_append] at e
            obtain ⟨rfl, -⟩ := List.cons.inj e
            exact absurd he (stop n t hn)
  have hgreatest : Nat.findGreatest (fun k => Truncated ((b :: rest).take k))
      (b :: rest).length = 0 := by
    rw [Nat.findGreatest_eq_zero_iff]
    rintro k hk - ⟨n, t, hn, -, e⟩
    rw [show k = (k - 1) + 1 by omega, List.take_succ_cons, List.cons_append] at e
    exact stop n _ hn e
  have hmax : maximalSubpart (b :: rest) = 1 := by
    rw [maximalSubpart, hgreatest]
    rfl
  rw [decodeLossy_none (by simp) hnone, hmax]
  rfl

/-! ## What completes an encoding -/

/-- `t` is `k` continuation bytes, the first between `lo` and `hi`, whose payloads turn the
    value `v` into `n`. -/
def Completes : ℕ → ℕ → ℕ → ℕ → List UInt8 → ℕ → Prop
  | 0, _, _, v, t, n => t = [] ∧ n = v
  | k + 1, lo, hi, v, t, n =>
      match t with
      | [] => False
      | b :: t =>
          (lo ≤ b.toNat ∧ b.toNat ≤ hi)
            ∧ Completes k 0x80 0xBF (v * 0x40 + b.toNat % 0x40) t n

theorem Completes.length_eq {k lo hi v : ℕ} {t : List UInt8} {n : ℕ}
    (h : Completes k lo hi v t n) : t.length = k := by
  induction k generalizing lo hi v t with
  | zero => rw [h.1]; rfl
  | succ k ih =>
      cases t with
      | nil => exact h.elim
      | cons b t => rw [List.length_cons, ih h.2]

/-- Some bytes complete an encoding whose bounds leave room. -/
theorem exists_completes (k : ℕ) {lo hi : ℕ} (v : ℕ) (h : lo ≤ hi) (hlt : hi < 256) :
    ∃ t n, Completes k lo hi v t n := by
  induction k generalizing lo hi v with
  | zero => exact ⟨[], v, rfl, rfl⟩
  | succ k ih =>
      have hlo : (UInt8.ofNat lo).toNat = lo := by
        rw [UInt8.toNat_ofNat']
        exact Nat.mod_eq_of_lt (by omega)
      have room : 0x80 ≤ 0xBF := by decide
      obtain ⟨t, n, ht⟩ := ih (v * 0x40 + (UInt8.ofNat lo).toNat % 0x40) room (by decide)
      exact ⟨UInt8.ofNat lo :: t, n, ⟨by omega, by omega⟩, ht⟩

theorem decodeOne_whole {bs : List UInt8} {n : ℕ} :
    (IsScalar n ∧ encodeCodePoint n = bs) ↔ decodeOne bs = some (n, []) := by
  constructor
  · rintro ⟨hn, rfl⟩
    have h := decodeOne_encode hn []
    rwa [List.append_nil] at h
  · intro h
    obtain ⟨hn, e⟩ := decodeOne_sound h
    rw [List.append_nil] at e
    exact ⟨hn, e.symm⟩

theorem completes_one {b : UInt8} (hb : b.toNat < 0x80) (t : List UInt8) (n : ℕ) :
    (IsScalar n ∧ encodeCodePoint n = b :: t) ↔ Completes 0 0 0 b.toNat t n := by
  rw [decodeOne_whole, decodeOne, if_pos hb, Completes, Option.some.injEq, Prod.mk.injEq]
  exact ⟨fun h => ⟨h.2, h.1.symm⟩, fun h => ⟨h.2.symm, h.1⟩⟩

theorem completes_two {b : UInt8} (h1 : 0xC2 ≤ b.toNat) (h2 : b.toNat ≤ 0xDF)
    (t : List UInt8) (n : ℕ) :
    (IsScalar n ∧ encodeCodePoint n = b :: t) ↔ Completes 1 0x80 0xBF (b.toNat % 0x20) t n := by
  rw [decodeOne_whole, decodeOne, if_neg (by omega), if_neg (by omega), if_pos (by omega)]
  cases t with
  | nil => simp [decodeTwo, Completes]
  | cons c t =>
      rw [decodeTwo, Completes, Completes]
      by_cases hc : IsTail c
      · obtain ⟨hc1, hc2⟩ := id hc
        rw [if_pos ⟨hc, by omega⟩, Option.some.injEq, Prod.mk.injEq]
        constructor
        · rintro ⟨hn, rfl⟩
          exact ⟨⟨by omega, by omega⟩, rfl, by omega⟩
        · rintro ⟨-, rfl, hn⟩
          exact ⟨by omega, rfl⟩
      · rw [if_neg (fun h => hc h.1)]
        refine ⟨(by rintro ⟨⟩), fun h => absurd ?_ hc⟩
        exact ⟨by omega, by omega⟩

theorem completes_three {b : UInt8} (h1 : 0xE0 ≤ b.toNat) (h2 : b.toNat ≤ 0xEF)
    (t : List UInt8) (n : ℕ) :
    (IsScalar n ∧ encodeCodePoint n = b :: t)
      ↔ Completes 2 (if b.toNat = 0xE0 then 0xA0 else 0x80)
          (if b.toNat = 0xED then 0x9F else 0xBF) (b.toNat % 0x10) t n := by
  rw [decodeOne_whole, decodeOne, if_neg (by omega), if_neg (by omega), if_neg (by omega),
    if_pos (by omega)]
  rcases t with _ | ⟨c, _ | ⟨d, t⟩⟩
  · simp [decodeThree, Completes]
  · simp [decodeThree, Completes]
  · have hval : threeValue b c d
        = (b.toNat - 0xE0) * 0x1000 + c.toNat % 0x40 * 0x40 + d.toNat % 0x40 := rfl
    rw [decodeThree, Completes, Completes, Completes]
    by_cases ht : IsTail c ∧ IsTail d
    · obtain ⟨⟨hc1, hc2⟩, hd1, hd2⟩ := ht
      by_cases hs : 0x800 ≤ threeValue b c d ∧ IsScalar (threeValue b c d)
      · rw [if_pos ⟨⟨hc1, hc2⟩, ⟨hd1, hd2⟩, hs.1, hs.2⟩, Option.some.injEq, Prod.mk.injEq]
        have hs1 := hs.1
        have hs2 := hs.2
        rw [IsScalar] at hs2
        constructor
        · rintro ⟨hn, rfl⟩
          refine ⟨⟨?_, ?_⟩, ⟨by omega, by omega⟩, rfl, by omega⟩
          · split_ifs <;> omega
          · split_ifs <;> omega
        · rintro ⟨-, -, rfl, hn⟩
          exact ⟨by omega, rfl⟩
      · rw [if_neg (fun h => hs h.2.2)]
        refine ⟨(by rintro ⟨⟩), fun h => absurd ?_ hs⟩
        obtain ⟨⟨hlo, hhi⟩, -⟩ := h
        rw [IsScalar]
        split_ifs at hlo hhi <;> omega
    · rw [if_neg (fun h => ht ⟨h.1, h.2.1⟩)]
      refine ⟨(by rintro ⟨⟩), fun h => absurd ?_ ht⟩
      obtain ⟨⟨hlo, hhi⟩, ⟨hd1, hd2⟩, -⟩ := h
      refine ⟨⟨?_, ?_⟩, by omega, by omega⟩
      · split_ifs at hlo <;> omega
      · split_ifs at hhi <;> omega

theorem completes_four {b : UInt8} (h1 : 0xF0 ≤ b.toNat) (h2 : b.toNat ≤ 0xF4)
    (t : List UInt8) (n : ℕ) :
    (IsScalar n ∧ encodeCodePoint n = b :: t)
      ↔ Completes 3 (if b.toNat = 0xF0 then 0x90 else 0x80)
          (if b.toNat = 0xF4 then 0x8F else 0xBF) (b.toNat % 0x08) t n := by
  rw [decodeOne_whole, decodeOne, if_neg (by omega), if_neg (by omega), if_neg (by omega),
    if_neg (by omega), if_pos (by omega)]
  rcases t with _ | ⟨c, _ | ⟨d, _ | ⟨e, t⟩⟩⟩
  · simp [decodeFour, Completes]
  · simp [decodeFour, Completes]
  · simp [decodeFour, Completes]
  · have hval : fourValue b c d e = (b.toNat - 0xF0) * 0x40000 + c.toNat % 0x40 * 0x1000
        + d.toNat % 0x40 * 0x40 + e.toNat % 0x40 := rfl
    rw [decodeFour, Completes, Completes, Completes, Completes]
    by_cases ht : IsTail c ∧ IsTail d ∧ IsTail e
    · obtain ⟨⟨hc1, hc2⟩, ⟨hd1, hd2⟩, he1, he2⟩ := ht
      by_cases hs : 0x10000 ≤ fourValue b c d e ∧ IsScalar (fourValue b c d e)
      · rw [if_pos ⟨⟨hc1, hc2⟩, ⟨hd1, hd2⟩, ⟨he1, he2⟩, hs.1, hs.2⟩, Option.some.injEq,
          Prod.mk.injEq]
        have hs1 := hs.1
        have hs2 := hs.2
        rw [IsScalar] at hs2
        constructor
        · rintro ⟨hn, rfl⟩
          refine ⟨⟨?_, ?_⟩, ⟨by omega, by omega⟩, ⟨by omega, by omega⟩, rfl, by omega⟩
          · split_ifs <;> omega
          · split_ifs <;> omega
        · rintro ⟨-, -, -, rfl, hn⟩
          exact ⟨by omega, rfl⟩
      · rw [if_neg (fun h => hs h.2.2.2)]
        refine ⟨(by rintro ⟨⟩), fun h => absurd ?_ hs⟩
        obtain ⟨⟨hlo, hhi⟩, -⟩ := h
        rw [IsScalar]
        split_ifs at hlo hhi <;> omega
    · rw [if_neg (fun h => ht ⟨h.1, h.2.1, h.2.2.1⟩)]
      refine ⟨(by rintro ⟨⟩), fun h => absurd ?_ ht⟩
      obtain ⟨⟨hlo, hhi⟩, ⟨hd1, hd2⟩, ⟨he1, he2⟩, -⟩ := h
      refine ⟨⟨?_, ?_⟩, ⟨by omega, by omega⟩, by omega, by omega⟩
      · split_ifs at hlo <;> omega
      · split_ifs at hhi <;> omega

/-- The bytes that begin no encoding. -/
theorem not_lead {b : UInt8} (h1 : 0x80 ≤ b.toNat)
    (h2 : b.toNat < 0xC2 ∨ 0xF4 < b.toNat) {n : ℕ} (hn : IsScalar n) (t : List UInt8) :
    encodeCodePoint n ≠ b :: t := by
  intro e
  have h := decodeOne_whole.mp ⟨hn, e⟩
  rw [decodeOne, if_neg (by omega)] at h
  by_cases h3 : b.toNat < 0xC0
  · rw [if_pos h3] at h
    cases h
  rw [if_neg h3] at h
  by_cases h4 : b.toNat < 0xE0
  · rw [if_pos h4] at h
    cases t with
    | nil => simp [decodeTwo] at h
    | cons c t =>
        rw [decodeTwo, if_neg] at h
        · cases h
        · rintro ⟨-, hv⟩
          omega
  rw [if_neg h4, if_neg (by omega)] at h
  by_cases h5 : b.toNat < 0xF8
  · rw [if_pos h5] at h
    rcases t with _ | ⟨c, _ | ⟨d, _ | ⟨f, t⟩⟩⟩
    · simp [decodeFour] at h
    · simp [decodeFour] at h
    · simp [decodeFour] at h
    · have hval : fourValue b c d f = (b.toNat - 0xF0) * 0x40000 + c.toNat % 0x40 * 0x1000
          + d.toNat % 0x40 * 0x40 + f.toNat % 0x40 := rfl
      rw [decodeFour, if_neg] at h
      · cases h
      · rintro ⟨-, -, -, -, hs⟩
        rw [IsScalar] at hs
        omega
  · rw [if_neg h5] at h
    cases h

/-! ## The byte order mark -/

/-- The encoding of U+FEFF. -/
def byteOrderMark : List UInt8 := [0xEF, 0xBB, 0xBF]

/-- The code points of a byte sequence after one leading byte order mark. -/
noncomputable def decodeUtf8 (bs : List UInt8) : List ℕ :=
  decodeLossy (if byteOrderMark.isPrefixOf bs then bs.drop 3 else bs)

/-- Code points without a leading U+FEFF. -/
def dropMark : List ℕ → List ℕ
  | n :: ns => if n = 0xFEFF then ns else n :: ns
  | [] => []

/-- Dropping the mark's bytes is dropping its code point. -/
theorem decodeUtf8_eq (bs : List UInt8) : decodeUtf8 bs = dropMark (decodeLossy bs) := by
  have hmark : encodeCodePoint 0xFEFF = byteOrderMark := by decide
  have hscalar : IsScalar 0xFEFF := by decide
  rw [decodeUtf8]
  by_cases hp : byteOrderMark.isPrefixOf bs = true
  · obtain ⟨rest, rfl⟩ := List.isPrefixOf_iff_prefix.mp hp
    rw [if_pos hp, ← hmark, decodeLossy_encode hscalar, dropMark, if_pos rfl]
    rfl
  · rw [if_neg hp]
    cases bs with
    | nil => simp [dropMark]
    | cons b bs =>
        cases hd : decodeOne (b :: bs) with
        | none =>
            rw [decodeLossy_none (by simp) hd, dropMark, if_neg (by decide)]
        | some nr =>
            obtain ⟨n, r⟩ := nr
            obtain ⟨hn, e⟩ := decodeOne_sound hd
            have hne : n ≠ 0xFEFF := by
              rintro rfl
              rw [hmark] at e
              exact hp (List.isPrefixOf_iff_prefix.mpr ⟨r, e.symm⟩)
            rw [e, decodeLossy_encode hn, dropMark, if_neg hne]

/-! ## Encoding -/

/-- A code point, or U+FFFD for a surrogate. -/
def scalarOr (n : ℕ) : ℕ := if IsScalar n then n else replacement

/-- The UTF-8 form of a UTF-16 sequence, each unpaired surrogate replaced by U+FFFD. -/
def utf8Lossy (us : List UInt16) : List UInt8 := encodeAll ((codePoints us).map scalarOr)

theorem utf8Lossy_wellFormed {us : List UInt16} (h : WellFormed us) :
    utf8Lossy us = utf8Of us := by
  have hid : (codePoints us).map scalarOr = codePoints us := by
    conv_rhs => rw [← List.map_id (codePoints us)]
    exact List.map_congr_left fun n hn => if_pos (h n hn)
  rw [utf8Lossy, hid, utf8Of]

/-- Lossy decoding gives back what was encoded from scalar values. -/
theorem decodeLossy_encodeAll {cps : List ℕ} (h : AllScalar cps) :
    decodeLossy (encodeAll cps) = cps := by
  induction cps with
  | nil => exact decodeLossy_nil
  | cons n cps ih => rw [encodeAll_cons, decodeLossy_encode h.head, ih h.tail]

end Utf8Spec

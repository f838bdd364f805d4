import Mathlib

/-! # UTF-8 and UTF-16, independent of any program

    The two encodings as functions on code points.  `encodeCodePoint` writes one
    code point as UTF-8 bytes, a surrogate being written like any other code
    point below `0x10000`; `decodeOne` reads one strict UTF-8 sequence back.

    * `decodeOne_encode`: decoding inverts encoding on scalar values;
    * `decodeOne_sound`: whatever decodes was encoded from a scalar value;
    * `codePoints_unitsAll`: pairing the surrogates of the UTF-16 form of a
      list of scalar values gives the list back;
    * `valid_iff_decodeOne`: reading a sequence strictly, one by one, accepts
      exactly the encodings of scalar-value lists. -/

namespace Utf8Spec

/-- A Unicode scalar value: a code point that is not a surrogate. -/
def IsScalar (n : Nat) : Prop := n < 0xD800 ∨ (0xE000 ≤ n ∧ n < 0x110000)

instance (n : Nat) : Decidable (IsScalar n) :=
  inferInstanceAs (Decidable (_ ∨ _))

/-- A high (leading) surrogate code unit. -/
def IsHigh (u : UInt16) : Prop := 0xD800 ≤ u.toNat ∧ u.toNat ≤ 0xDBFF

/-- A low (trailing) surrogate code unit. -/
def IsLow (u : UInt16) : Prop := 0xDC00 ≤ u.toNat ∧ u.toNat ≤ 0xDFFF

instance (u : UInt16) : Decidable (IsHigh u) := inferInstanceAs (Decidable (_ ∧ _))
instance (u : UInt16) : Decidable (IsLow u) := inferInstanceAs (Decidable (_ ∧ _))

/-- The code point of a surrogate pair. -/
def pairValue (hi lo : UInt16) : Nat :=
  0x10000 + (hi.toNat - 0xD800) * 0x400 + (lo.toNat - 0xDC00)

/-! ## Code points to bytes -/

/-- The UTF-8 bytes of a code point below `0x110000`. -/
def encodeCodePoint (n : Nat) : List UInt8 :=
  if n < 0x80 then [UInt8.ofNat n]
  else if n < 0x800 then
    [UInt8.ofNat (0xC0 + n / 0x40), UInt8.ofNat (0x80 + n % 0x40)]
  else if n < 0x10000 then
    [UInt8.ofNat (0xE0 + n / 0x1000), UInt8.ofNat (0x80 + n / 0x40 % 0x40),
      UInt8.ofNat (0x80 + n % 0x40)]
  else
    [UInt8.ofNat (0xF0 + n / 0x40000), UInt8.ofNat (0x80 + n / 0x1000 % 0x40),
      UInt8.ofNat (0x80 + n / 0x40 % 0x40), UInt8.ofNat (0x80 + n % 0x40)]

/-- The number of bytes of `encodeCodePoint`. -/
def codePointWidth (n : Nat) : Nat :=
  if n < 0x80 then 1 else if n < 0x800 then 2 else if n < 0x10000 then 3 else 4

/-- A code point is encoded in as many bytes as it is wide. -/
@[simp] theorem encodeCodePoint_length (n : Nat) :
    (encodeCodePoint n).length = codePointWidth n := by
  unfold encodeCodePoint codePointWidth
  split
  · rfl
  · split
    · rfl
    · split <;> rfl

theorem codePointWidth_pos (n : Nat) : 0 < codePointWidth n := by
  unfold codePointWidth
  split_ifs <;> omega

/-- A UTF-8 continuation byte. -/
def IsTail (b : UInt8) : Prop := 0x80 ≤ b.toNat ∧ b.toNat < 0xC0

instance (b : UInt8) : Decidable (IsTail b) := inferInstanceAs (Decidable (_ ∧ _))

/-- The rest of a two-byte sequence whose lead is `c`. -/
def decodeTwo (c : UInt8) : List UInt8 → Option (Nat × List UInt8)
  | c2 :: rest =>
      if IsTail c2 ∧ 0x80 ≤ (c.toNat - 0xC0) * 0x40 + c2.toNat % 0x40 then
        some ((c.toNat - 0xC0) * 0x40 + c2.toNat % 0x40, rest)
      else none
  | _ => none

/-- The value of a three-byte sequence. -/
def threeValue (c c2 c3 : UInt8) : Nat :=
  (c.toNat - 0xE0) * 0x1000 + c2.toNat % 0x40 * 0x40 + c3.toNat % 0x40

/-- The rest of a three-byte sequence whose lead is `c`. -/
def decodeThree (c : UInt8) : List UInt8 → Option (Nat × List UInt8)
  | c2 :: c3 :: rest =>
      if IsTail c2 ∧ IsTail c3 ∧ 0x800 ≤ threeValue c c2 c3
          ∧ IsScalar (threeValue c c2 c3) then
        some (threeValue c c2 c3, rest)
      else none
  | _ => none

/-- The value of a four-byte sequence. -/
def fourValue (c c2 c3 c4 : UInt8) : Nat :=
  (c.toNat - 0xF0) * 0x40000 + c2.toNat % 0x40 * 0x1000
    + c3.toNat % 0x40 * 0x40 + c4.toNat % 0x40

/-- The rest of a four-byte sequence whose lead is `c`. -/
def decodeFour (c : UInt8) : List UInt8 → Option (Nat × List UInt8)
  | c2 :: c3 :: c4 :: rest =>
      if IsTail c2 ∧ IsTail c3 ∧ IsTail c4 ∧ 0x10000 ≤ fourValue c c2 c3 c4
          ∧ IsScalar (fourValue c c2 c3 c4) then
        some (fourValue c c2 c3 c4, rest)
      else none
  | _ => none

/-- Reads one strict UTF-8 sequence: its code point and the bytes after it. -/
def decodeOne : List UInt8 → Option (Nat × List UInt8)
  | [] => none
  | c :: rest =>
      if c.toNat < 0x80 then some (c.toNat, rest)
      else if c.toNat < 0xC0 then none
      else if c.toNat < 0xE0 then decodeTwo c rest
      else if c.toNat < 0xF0 then decodeThree c rest
      else if c.toNat < 0xF8 then decodeFour c rest
      else none

private theorem ofNat_of_toNat_eq {b : UInt8} {k : Nat} (hk : b.toNat = k) :
    UInt8.ofNat k = b := by
  rw [← hk]
  exact UInt8.ofNat_toNat

/-- Two bytes that are decoded encode a scalar. -/
theorem decodeTwo_sound {c : UInt8} {tl rest : List UInt8} {n : Nat}
    (hlo : 0xC0 ≤ c.toNat) (hhi : c.toNat < 0xE0)
    (h : decodeTwo c tl = some (n, rest)) :
    IsScalar n ∧ c :: tl = encodeCodePoint n ++ rest := by
  match tl, h with
  | [], h => cases h
  | c2 :: tl2, h =>
      rw [decodeTwo] at h
      split at h
      · next hok =>
          obtain ⟨⟨ht1, ht2⟩, hlow⟩ := hok
          obtain ⟨rfl, rfl⟩ := Prod.mk.inj (Option.some.inj h)
          refine ⟨Or.inl (by omega), ?_⟩
          unfold encodeCodePoint
          rw [if_neg (by omega), if_pos (by omega)]
          rw [ofNat_of_toNat_eq (b := c) (by omega),
            ofNat_of_toNat_eq (b := c2) (by omega)]
          rfl
      · cases h

/-- Three bytes that are decoded encode a scalar. -/
theorem decodeThree_sound {c : UInt8} {tl rest : List UInt8} {n : Nat}
    (hlo : 0xE0 ≤ c.toNat) (hhi : c.toNat < 0xF0)
    (h : decodeThree c tl = some (n, rest)) :
    IsScalar n ∧ c :: tl = encodeCodePoint n ++ rest := by
  match tl, h with
  | [], h => cases h
  | [_], h => cases h
  | c2 :: c3 :: tl3, h =>
      rw [decodeThree] at h
      split at h
      · next hok =>
          obtain ⟨⟨ht1, ht2⟩, ⟨hu1, hu2⟩, hlow, hsc⟩ := hok
          obtain ⟨rfl, rfl⟩ := Prod.mk.inj (Option.some.inj h)
          refine ⟨hsc, ?_⟩
          unfold threeValue at hlow ⊢
          unfold encodeCodePoint
          rw [if_neg (by omega), if_neg (by omega), if_pos (by omega)]
          rw [ofNat_of_toNat_eq (b := c) (by omega),
            ofNat_of_toNat_eq (b := c2) (by omega),
            ofNat_of_toNat_eq (b := c3) (by omega)]
          rfl
      · cases h

/-- Four bytes that are decoded encode a scalar. -/
theorem decodeFour_sound {c : UInt8} {tl rest : List UInt8} {n : Nat}
    (hlo : 0xF0 ≤ c.toNat) (hhi : c.toNat < 0xF8)
    (h : decodeFour c tl = some (n, rest)) :
    IsScalar n ∧ c :: tl = encodeCodePoint n ++ rest := by
  match tl, h with
  | [], h => cases h
  | [_], h => cases h
  | [_, _], h => cases h
  | c2 :: c3 :: c4 :: tl4, h =>
      rw [decodeFour] at h
      split at h
      · next hok =>
          obtain ⟨⟨ht1, ht2⟩, ⟨hu1, hu2⟩, ⟨hv1, hv2⟩, hlow, hsc⟩ := hok
          obtain ⟨rfl, rfl⟩ := Prod.mk.inj (Option.some.inj h)
          refine ⟨hsc, ?_⟩
          unfold fourValue at hlow ⊢
          unfold encodeCodePoint
          rw [if_neg (by omega), if_neg (by omega), if_neg (by omega)]
          rw [ofNat_of_toNat_eq (b := c) (by omega),
            ofNat_of_toNat_eq (b := c2) (by omega),
            ofNat_of_toNat_eq (b := c3) (by omega),
            ofNat_of_toNat_eq (b := c4) (by omega)]
          rfl
      · cases h

/-- Whatever `decodeOne` reads is a scalar value's encoding. -/
theorem decodeOne_sound {bs rest : List UInt8} {n : Nat}
    (h : decodeOne bs = some (n, rest)) :
    IsScalar n ∧ bs = encodeCodePoint n ++ rest := by
  cases bs with
  | nil => cases h
  | cons c tl =>
      rw [decodeOne] at h
      by_cases h1 : c.toNat < 0x80
      · rw [if_pos h1] at h
        obtain ⟨rfl, rfl⟩ := Prod.mk.inj (Option.some.inj h)
        refine ⟨Or.inl (by omega), ?_⟩
        unfold encodeCodePoint
        rw [if_pos h1, UInt8.ofNat_toNat]
        rfl
      rw [if_neg h1] at h
      by_cases h2 : c.toNat < 0xC0
      · rw [if_pos h2] at h
        cases h
      rw [if_neg h2] at h
      by_cases h3 : c.toNat < 0xE0
      · rw [if_pos h3] at h
        exact decodeTwo_sound (by omega) h3 h
      rw [if_neg h3] at h
      by_cases h4 : c.toNat < 0xF0
      · rw [if_pos h4] at h
        exact decodeThree_sound (by omega) h4 h
      rw [if_neg h4] at h
      by_cases h5 : c.toNat < 0xF8
      · rw [if_pos h5] at h
        exact decodeFour_sound (by omega) h5 h
      · rw [if_neg h5] at h
        cases h

private theorem toNat_ofNat_of_lt {k : Nat} (hk : k < 256) :
    (UInt8.ofNat k).toNat = k := by
  rw [UInt8.toNat_ofNat']
  exact Nat.mod_eq_of_lt hk

/-- Decoding inverts encoding on scalar values, whatever follows. -/
theorem decodeOne_encode {n : Nat} (hn : IsScalar n) (rest : List UInt8) :
    decodeOne (encodeCodePoint n ++ rest) = some (n, rest) := by
  have hlt : n < 0x110000 := by
    rcases hn with h | h <;> omega
  unfold encodeCodePoint
  -- one case for each length; the bytes give the value back by arithmetic
  by_cases h1 : n < 0x80
  · have e1 := toNat_ofNat_of_lt (k := n) (by omega)
    rw [if_pos h1, List.cons_append, decodeOne, e1, if_pos h1]
    rfl
  by_cases h2 : n < 0x800
  · have e1 := toNat_ofNat_of_lt (k := 0xC0 + n / 0x40) (by omega)
    have e2 := toNat_ofNat_of_lt (k := 0x80 + n % 0x40) (by omega)
    rw [if_neg h1, if_pos h2, List.cons_append, decodeOne, e1, if_neg (by omega),
      if_neg (by omega), if_pos (by omega), List.cons_append, decodeTwo, e1, e2,
      if_pos ⟨by unfold IsTail; omega, by omega⟩]
    exact congrArg some (Prod.ext (by show _ = n; omega) rfl)
  by_cases h3 : n < 0x10000
  · have e1 := toNat_ofNat_of_lt (k := 0xE0 + n / 0x1000) (by omega)
    have e2 := toNat_ofNat_of_lt (k := 0x80 + n / 0x40 % 0x40) (by omega)
    have e3 := toNat_ofNat_of_lt (k := 0x80 + n % 0x40) (by omega)
    have hv : threeValue (UInt8.ofNat (0xE0 + n / 0x1000))
        (UInt8.ofNat (0x80 + n / 0x40 % 0x40)) (UInt8.ofNat (0x80 + n % 0x40)) = n := by
      unfold threeValue
      rw [e1, e2, e3]
      omega
    rw [if_neg h1, if_neg h2, if_pos h3, List.cons_append, decodeOne, e1,
      if_neg (by omega), if_neg (by omega), if_neg (by omega), if_pos (by omega),
      List.cons_append, List.cons_append, decodeThree, hv,
      if_pos ⟨by unfold IsTail; omega, by unfold IsTail; omega, by omega, hn⟩]
    rfl
  · have e1 := toNat_ofNat_of_lt (k := 0xF0 + n / 0x40000) (by omega)
    have e2 := toNat_ofNat_of_lt (k := 0x80 + n / 0x1000 % 0x40) (by omega)
    have e3 := toNat_ofNat_of_lt (k := 0x80 + n / 0x40 % 0x40) (by omega)
    have e4 := toNat_ofNat_of_lt (k := 0x80 + n % 0x40) (by omega)
    have hv : fourValue (UInt8.ofNat (0xF0 + n / 0x40000))
        (UInt8.ofNat (0x80 + n / 0x1000 % 0x40)) (UInt8.ofNat (0x80 + n / 0x40 % 0x40))
        (UInt8.ofNat (0x80 + n % 0x40)) = n := by
      unfold fourValue
      rw [e1, e2, e3, e4]
      omega
    rw [if_neg h1, if_neg h2, if_neg h3, List.cons_append, decodeOne, e1,
      if_neg (by omega), if_neg (by omega), if_neg (by omega), if_neg (by omega),
      if_pos (by omega), List.cons_append, List.cons_append, List.cons_append,
      decodeFour, hv,
      if_pos ⟨by unfold IsTail; omega, by unfold IsTail; omega,
        by unfold IsTail; omega, by omega, hn⟩]
    rfl

/-- Decoding takes as many bytes as the code point is wide. -/
theorem decodeOne_length {bs rest : List UInt8} {n : Nat}
    (h : decodeOne bs = some (n, rest)) :
    bs.length = codePointWidth n + rest.length := by
  rw [(decodeOne_sound h).2, List.length_append, encodeCodePoint_length]

/-! ## Whole byte sequences -/

/-- The UTF-8 bytes of a list of code points. -/
def encodeAll (cps : List Nat) : List UInt8 := cps.flatMap encodeCodePoint

@[simp] theorem encodeAll_nil : encodeAll [] = [] := rfl

@[simp] theorem encodeAll_cons (n : Nat) (cps : List Nat) :
    encodeAll (n :: cps) = encodeCodePoint n ++ encodeAll cps := rfl

/-- The list holds scalar values only. -/
def AllScalar (cps : List Nat) : Prop := ∀ n ∈ cps, IsScalar n

theorem AllScalar.head {n : Nat} {cps : List Nat} (h : AllScalar (n :: cps)) :
    IsScalar n := h n List.mem_cons_self

theorem AllScalar.tail {n : Nat} {cps : List Nat} (h : AllScalar (n :: cps)) :
    AllScalar cps := fun m hm => h m (List.mem_cons_of_mem n hm)

theorem AllScalar.cons {n : Nat} {cps : List Nat} (hn : IsScalar n)
    (h : AllScalar cps) : AllScalar (n :: cps) := by
  intro m hm
  rcases List.mem_cons.mp hm with rfl | hmem
  · exact hn
  · exact h m hmem

/-- Strictly valid UTF-8: the encoding of a list of scalar values. -/
def Valid (bs : List UInt8) : Prop := ∃ cps, AllScalar cps ∧ encodeAll cps = bs

theorem valid_nil : Valid [] := ⟨[], fun _ h => (List.not_mem_nil h).elim, rfl⟩

/-- A non-empty sequence is valid exactly when its first sequence decodes and the
    bytes after it are valid. -/
theorem valid_iff_decodeOne {bs : List UInt8} (hne : bs ≠ []) :
    Valid bs ↔ ∃ n rest, decodeOne bs = some (n, rest) ∧ Valid rest := by
  constructor
  · rintro ⟨cps, hsc, rfl⟩
    cases cps with
    | nil => exact absurd rfl hne
    | cons n cps =>
        exact ⟨n, encodeAll cps, decodeOne_encode hsc.head _, cps, hsc.tail, rfl⟩
  · rintro ⟨n, rest, hd, cps, hsc, rfl⟩
    obtain ⟨hn, hbs⟩ := decodeOne_sound hd
    exact ⟨n :: cps, hsc.cons hn, hbs.symm⟩

/-- Scalar-value lists with one encoding are one list. -/
theorem encodeAll_injective {cps cps' : List Nat} (h : AllScalar cps)
    (h' : AllScalar cps') (heq : encodeAll cps = encodeAll cps') : cps = cps' := by
  induction cps generalizing cps' with
  | nil =>
      cases cps' with
      | nil => rfl
      | cons n cps' =>
          have hlen := congrArg List.length heq
          rw [encodeAll_cons, List.length_append, encodeCodePoint_length] at hlen
          have := codePointWidth_pos n
          simp at hlen
          omega
  | cons n cps ih =>
      cases cps' with
      | nil =>
          have hlen := congrArg List.length heq
          rw [encodeAll_cons, List.length_append, encodeCodePoint_length] at hlen
          have := codePointWidth_pos n
          simp at hlen
          omega
      | cons n' cps' =>
          have hd := decodeOne_encode h.head (encodeAll cps)
          rw [← encodeAll_cons, heq, encodeAll_cons, decodeOne_encode h'.head] at hd
          obtain ⟨rfl, hrest⟩ := Prod.mk.inj (Option.some.inj hd)
          rw [ih h.tail h'.tail hrest.symm]

/-! ## Code points and UTF-16 units -/

/-- The code points of a UTF-16 sequence: a high surrogate directly before a low
    one gives their pair, any other unit its own value. -/
def codePoints : List UInt16 → List Nat
  | [] => []
  | [u] => [u.toNat]
  | u :: v :: rest =>
      if IsHigh u ∧ IsLow v then pairValue u v :: codePoints rest
      else u.toNat :: codePoints (v :: rest)

/-- Every surrogate of the sequence is part of a pair. -/
def WellFormed (us : List UInt16) : Prop := AllScalar (codePoints us)

/-- The UTF-16 units of a code point below `0x110000`. -/
def units (n : Nat) : List UInt16 :=
  if n < 0x10000 then [UInt16.ofNat n]
  else [UInt16.ofNat (0xD800 + (n - 0x10000) / 0x400),
    UInt16.ofNat (0xDC00 + (n - 0x10000) % 0x400)]

/-- The UTF-16 units of a list of code points. -/
def unitsAll (cps : List Nat) : List UInt16 := cps.flatMap units

@[simp] theorem unitsAll_nil : unitsAll [] = [] := rfl

@[simp] theorem unitsAll_cons (n : Nat) (cps : List Nat) :
    unitsAll (n :: cps) = units n ++ unitsAll cps := rfl

/-- The number of UTF-16 units of a code point. -/
def unitCount (n : Nat) : Nat := if n < 0x10000 then 1 else 2

/-- A code point has as many units as it counts for. -/
@[simp] theorem units_length (n : Nat) : (units n).length = unitCount n := by
  unfold units unitCount
  split <;> rfl

/-- A code point never takes more units than bytes. -/
theorem unitCount_le_width (n : Nat) : unitCount n ≤ codePointWidth n := by
  unfold unitCount codePointWidth
  split_ifs <;> omega

/-- Units equal bytes exactly for an ASCII code point. -/
theorem unitCount_eq_width_iff (n : Nat) : unitCount n = codePointWidth n ↔ n < 0x80 := by
  unfold unitCount codePointWidth
  split_ifs <;> omega

private theorem unit_ofNat_toNat {k : Nat} (hk : k < 0x10000) :
    (UInt16.ofNat k).toNat = k := by
  rw [UInt16.toNat_ofNat']
  exact Nat.mod_eq_of_lt hk

/-- A single unit is the units of its code. -/
theorem units_toNat (u : UInt16) : units u.toNat = [u] := by
  unfold units
  rw [if_pos u.toNat_lt, UInt16.ofNat_toNat]

/-- A joined pair splits into its halves. -/
theorem units_pairValue {u v : UInt16} (hu : IsHigh u) (hv : IsLow v) :
    units (pairValue u v) = [u, v] := by
  obtain ⟨hu1, hu2⟩ := hu
  obtain ⟨hv1, hv2⟩ := hv
  unfold units pairValue
  have e1 : 0xD800 + (0x10000 + (u.toNat - 0xD800) * 0x400 + (v.toNat - 0xDC00)
      - 0x10000) / 0x400 = u.toNat := by omega
  have e2 : 0xDC00 + (0x10000 + (u.toNat - 0xD800) * 0x400 + (v.toNat - 0xDC00)
      - 0x10000) % 0x400 = v.toNat := by omega
  rw [if_neg (by omega), e1, e2, UInt16.ofNat_toNat, UInt16.ofNat_toNat]

/-- Writing the code points of a sequence back gives the sequence. -/
theorem unitsAll_codePoints (us : List UInt16) : unitsAll (codePoints us) = us := by
  induction us using codePoints.induct with
  | case1 => rfl
  | case2 u => rw [codePoints, unitsAll_cons, units_toNat]; rfl
  | case3 u v rest hp ih =>
      rw [codePoints, if_pos hp, unitsAll_cons, units_pairValue hp.1 hp.2, ih]
      rfl
  | case4 u v rest hp ih =>
      rw [codePoints, if_neg hp, unitsAll_cons, units_toNat, ih]
      rfl

/-- A scalar value's units are read back before any rest. -/
theorem codePoints_units_append {n : Nat} (hn : IsScalar n) (us : List UInt16) :
    codePoints (units n ++ us) = n :: codePoints us := by
  have hlt : n < 0x110000 := by
    rcases hn with h | h <;> omega
  unfold units
  by_cases h1 : n < 0x10000
  · rw [if_pos h1]
    have e1 := unit_ofNat_toNat h1
    cases us with
    | nil => exact congrArg (fun k => [k]) e1
    | cons v us =>
        have hnh : ¬ (IsHigh (UInt16.ofNat n) ∧ IsLow v) := by
          rintro ⟨⟨ha, hb⟩, -⟩
          rw [e1] at ha hb
          rcases hn with h | h <;> omega
        rw [List.singleton_append, codePoints, if_neg hnh, e1]
  · rw [if_neg h1]
    have e1 := unit_ofNat_toNat (k := 0xD800 + (n - 0x10000) / 0x400) (by omega)
    have e2 := unit_ofNat_toNat (k := 0xDC00 + (n - 0x10000) % 0x400) (by omega)
    have hp : IsHigh (UInt16.ofNat (0xD800 + (n - 0x10000) / 0x400))
        ∧ IsLow (UInt16.ofNat (0xDC00 + (n - 0x10000) % 0x400)) := by
      unfold IsHigh IsLow
      rw [e1, e2]
      omega
    have hv : pairValue (UInt16.ofNat (0xD800 + (n - 0x10000) / 0x400))
        (UInt16.ofNat (0xDC00 + (n - 0x10000) % 0x400)) = n := by
      unfold pairValue
      rw [e1, e2]
      omega
    rw [List.cons_append, List.singleton_append, codePoints, if_pos hp, hv]

/-- Pairing the surrogates of a scalar-value list's units gives the list back. -/
theorem codePoints_unitsAll {cps : List Nat} (h : AllScalar cps) :
    codePoints (unitsAll cps) = cps := by
  induction cps with
  | nil => rfl
  | cons n cps ih => rw [unitsAll_cons, codePoints_units_append h.head, ih h.tail]

/-- A list of code points never takes more units than bytes. -/
theorem unitsAll_length_le (cps : List Nat) :
    (unitsAll cps).length ≤ (encodeAll cps).length := by
  induction cps with
  | nil => exact Nat.le_refl 0
  | cons n cps ih =>
      have := unitCount_le_width n
      rw [unitsAll_cons, encodeAll_cons, List.length_append, List.length_append,
        units_length, encodeCodePoint_length]
      omega

/-- Every code point takes at least one byte. -/
theorem length_le_encodeAll (cps : List Nat) : cps.length ≤ (encodeAll cps).length := by
  induction cps with
  | nil => exact Nat.le_refl 0
  | cons n cps ih =>
      have := codePointWidth_pos n
      rw [encodeAll_cons, List.length_append, encodeCodePoint_length, List.length_cons]
      omega

/-- The two forms have one length exactly on ASCII. -/
theorem unitsAll_length_eq_iff (cps : List Nat) :
    (unitsAll cps).length = (encodeAll cps).length ↔ ∀ n ∈ cps, n < 0x80 := by
  induction cps with
  | nil => exact ⟨fun _ _ h => (List.not_mem_nil h).elim, fun _ => rfl⟩
  | cons n cps ih =>
      have hle := unitCount_le_width n
      have hrest := unitsAll_length_le cps
      rw [unitsAll_cons, encodeAll_cons, List.length_append, List.length_append,
        units_length, encodeCodePoint_length, List.forall_mem_cons, ← ih,
        ← unitCount_eq_width_iff]
      omega

/-- ASCII code points are written as themselves, in both forms. -/
theorem encodeAll_ascii {cps : List Nat} (h : ∀ n ∈ cps, n < 0x80) :
    encodeAll cps = cps.map UInt8.ofNat := by
  induction cps with
  | nil => rfl
  | cons n cps ih =>
      have henc : encodeCodePoint n = [UInt8.ofNat n] := if_pos (h n List.mem_cons_self)
      rw [encodeAll_cons, henc, ih (fun m hm => h m (List.mem_cons_of_mem n hm))]
      rfl

/-- ASCII has one unit for each code point. -/
theorem unitsAll_ascii {cps : List Nat} (h : ∀ n ∈ cps, n < 0x80) :
    unitsAll cps = cps.map UInt16.ofNat := by
  induction cps with
  | nil => rfl
  | cons n cps ih =>
      have hlt := h n List.mem_cons_self
      have hu : units n = [UInt16.ofNat n] := if_pos (by omega)
      rw [unitsAll_cons, hu, ih (fun m hm => h m (List.mem_cons_of_mem n hm))]
      rfl

/-! ## The UTF-8 form of a UTF-16 sequence -/

/-- The UTF-8 bytes of a UTF-16 sequence, a lone surrogate written as the three
    bytes of its own value. -/
def utf8Of (us : List UInt16) : List UInt8 := encodeAll (codePoints us)

/-- The UTF-8 of a text's units is the encoding of its code points. -/
theorem utf8Of_unitsAll {cps : List Nat} (h : AllScalar cps) :
    utf8Of (unitsAll cps) = encodeAll cps := by
  unfold utf8Of
  rw [codePoints_unitsAll h]

end Utf8Spec

import EcoCompiler.Utf8KernelProofs

/-! # Which Strings and which bytes the UTF-8 paths agree on

    The four encoders agree on a String exactly when its UTF-8 form is shorter
    than `2 ^ 32` bytes: `elm_utf8_width` counts in a `u32`, while
    `getStringWidth` counts in an `int64_t` and the sized encoders abort past the
    limit.  The three decoders agree on every Bytes value. -/

namespace Utf8Kernel

open Utf8Spec

/-- The UTF-16 units of a String value. -/
def ElmString.units (s : ElmString) : List UInt16 := s.form.toStdU16String

/-- The two widths, the bytes both writers write and the count `elm_utf8_copy`
    returns, all about one String. -/
structure EncodersAgree (s : ElmString) : Prop where
  width : (elm_utf8_width s.form).toNat = getStringWidth s.form
  written : (writeUtf8 s.form).length = getStringWidth s.form
  copied : (elm_utf8_copy s.form).1.length = getStringWidth s.form
  returned : (elm_utf8_copy s.form).2.toNat = getStringWidth s.form
  bytes : (elm_utf8_copy s.form).1 = writeUtf8 s.form

/-- `Utf8::scan`, `elm_utf8_decode` and `read_string` on one range: all refuse it
    (`str` is `none`), or all accept it, `scan` announces the number of units and
    both decoders produce the units `str`, whatever lies around the range. -/
structure DecodersAgree (b : ByteBuffer) (str : Option (List UInt16)) : Prop where
  scan_valid : (scan b.data).valid = str.isSome
  scan_units : ∀ us ∈ str, (scan b.data).utf16Units.toNat = us.length
  decoded : ∀ (beyond : Nat → UInt8) (fuel : Nat), b.data.length < fuel →
    elm_utf8_decode (readAt b.data beyond) (UInt32.ofNat b.data.length) fuel
      = some (str.map StringForm.utf16)
  read : ∀ (enabled : Bool) (pre post : List UInt8),
    (read_string enabled b.data.length (pre ++ b.data ++ post) pre.length).map
        (fun r => (r.1, r.2.toStdU16String))
      = str.map (fun us => ((pre.length : Int) + b.data.length, us))

/-! ## Encoding -/

/-- An ASCII byte form is the UTF-8 form of its units. -/
theorem utf8Of_widened {bytes : List UInt8} (h : ∀ b ∈ bytes, b.toNat < 0x80) :
    utf8Of (StringForm.utf8 bytes).toStdU16String = bytes := by
  have hascii : ∀ n ∈ bytes.map UInt8.toNat, n < 0x80 := by
    intro n hn
    obtain ⟨b, hb, rfl⟩ := List.mem_map.mp hn
    exact h b hb
  have hself : encodeAll (bytes.map UInt8.toNat) = bytes := by
    rw [encodeAll_ascii hascii, List.map_map]
    refine (List.map_congr_left ?_).trans (List.map_id bytes)
    intro b _
    exact UInt8.ofNat_toNat
  have hsc : AllScalar (bytes.map UInt8.toNat) :=
    fun n hn => Or.inl (by have := hascii n hn; omega)
  have hunits := toStdU16String_ascii hascii
  rw [hself] at hunits
  rw [hunits, utf8Of_unitsAll hsc, hself]

/-- Both writers write the UTF-8 form of the String. -/
theorem writeUtf8_eq (s : ElmString) : writeUtf8 s.form = utf8Of s.units := by
  obtain ⟨form, ok⟩ := s
  cases form with
  | utf16 us => exact writeUtf8Loop_eq us
  | utf8 bytes => exact (utf8Of_widened ok.2).symm

theorem elm_utf8_copy_eq (s : ElmString) :
    elm_utf8_copy s.form
      = (utf8Of s.units, UInt32.ofNat (utf8Of s.units).length) := by
  obtain ⟨form, ok⟩ := s
  cases form with
  | utf16 us =>
      show (utf8CopyLoop us, UInt32.ofNat (utf8CopyLoop us).length) = _
      rw [utf8CopyLoop_eq]
      rfl
  | utf8 bytes =>
      show (bytes, UInt32.ofNat bytes.length) = _
      rw [show ElmString.units ⟨.utf8 bytes, ok⟩
        = (StringForm.utf8 bytes).toStdU16String from rfl, utf8Of_widened ok.2]

/-- The kernel's width is the length of the UTF-8 form. -/
theorem getStringWidth_eq (s : ElmString) :
    getStringWidth s.form = (utf8Of s.units).length := by
  obtain ⟨form, ok⟩ := s
  cases form with
  | utf16 us =>
      show getStringWidthLoop 0 us = _
      rw [getStringWidthLoop_eq, Nat.zero_add]
      rfl
  | utf8 bytes =>
      rw [show ElmString.units ⟨.utf8 bytes, ok⟩
        = (StringForm.utf8 bytes).toStdU16String from rfl, utf8Of_widened ok.2]
      rfl

/-- The runtime's width is that length modulo `2 ^ 32`. -/
theorem elm_utf8_width_eq (s : ElmString) :
    (elm_utf8_width s.form).toNat = (utf8Of s.units).length % 2 ^ 32 := by
  obtain ⟨form, ok⟩ := s
  cases form with
  | utf16 us =>
      show (utf8WidthLoop 0 us).toNat = _
      rw [utf8WidthLoop_eq, UInt32.zero_add, UInt32.toNat_ofNat']
      rfl
  | utf8 bytes =>
      rw [show ElmString.units ⟨.utf8 bytes, ok⟩
        = (StringForm.utf8 bytes).toStdU16String from rfl, utf8Of_widened ok.2]
      exact UInt32.toNat_ofNat'

/-- The encoders agree exactly on the Strings whose UTF-8 form fits a `u32`. -/
theorem encodersAgree_iff_fits (s : ElmString) :
    EncodersAgree s ↔ (utf8Of s.units).length < 2 ^ 32 := by
  have hpos : 0 < 2 ^ 32 := Nat.two_pow_pos 32
  constructor
  · intro h
    have hw := h.width
    rw [elm_utf8_width_eq, getStringWidth_eq] at hw
    rw [← hw]
    exact Nat.mod_lt _ hpos
  · intro h
    refine ⟨?_, ?_, ?_, ?_, ?_⟩
    · rw [elm_utf8_width_eq, getStringWidth_eq, Nat.mod_eq_of_lt h]
    · rw [writeUtf8_eq, getStringWidth_eq]
    · rw [elm_utf8_copy_eq, getStringWidth_eq]
    · rw [elm_utf8_copy_eq, getStringWidth_eq]
      show (UInt32.ofNat _).toNat = _
      rw [UInt32.toNat_ofNat', Nat.mod_eq_of_lt h]
    · rw [elm_utf8_copy_eq, writeUtf8_eq]

/-! ## Decoding -/

theorem decodersAgree_valid (b : ByteBuffer) {cps : List Nat} (hsc : AllScalar cps)
    (hbs : encodeAll cps = b.data) : DecodersAgree b (some (unitsAll cps)) := by
  have hle := unitsAll_length_le cps
  have hlen := b.size_lt
  refine ⟨(scan_valid_iff b.data).mpr ⟨cps, hsc, hbs⟩, ?_, ?_, ?_⟩
  · intro us hus
    rw [← Option.some.inj hus, ← hbs, scan_units hsc, UInt32.toNat_ofNat',
      Nat.mod_eq_of_lt (by rw [hbs] at hle; omega)]
  · intro beyond fuel hf
    exact elm_utf8_decode_valid b.size_lt hsc hbs hf
  · intro enabled pre post
    obtain ⟨str, hread, hunits, -⟩ :=
      read_string_valid enabled pre post b.size_lt hsc hbs
    rw [hread, Option.map_some, hunits]
    rfl

theorem decodersAgree_invalid (b : ByteBuffer) (hbad : ¬ Valid b.data) :
    DecodersAgree b none := by
  refine ⟨?_, ?_, ?_, ?_⟩
  · cases hv : (scan b.data).valid with
    | false => rfl
    | true => exact absurd ((scan_valid_iff b.data).mp hv) hbad
  · intro us hus
    cases hus
  · intro beyond fuel hf
    exact elm_utf8_decode_invalid b.size_lt hbad hf
  · intro enabled pre post
    rw [read_string_invalid enabled pre post hbad]
    rfl

/-- An accepted range is the UTF-8 form of the units it decodes to. -/
theorem decodersAgree_some {b : ByteBuffer} {us : List UInt16}
    (h : DecodersAgree b (some us)) : utf8Of us = b.data := by
  obtain ⟨cps, hsc, hbs⟩ := (scan_valid_iff b.data).mp h.scan_valid
  have hcps := decodersAgree_valid b hsc hbs
  have h1 := h.decoded (fun _ => 0) (b.data.length + 1) (Nat.lt_succ_self _)
  rw [hcps.decoded (fun _ => 0) (b.data.length + 1) (Nat.lt_succ_self _)] at h1
  have hus : unitsAll cps = us :=
    StringForm.utf16.inj (Option.some.inj (Option.some.inj h1))
  rw [← hus, utf8Of_unitsAll hsc, hbs]

/-! ## The agreement theorem -/

/-- The encoders agree on a String, and what they write for a well-formed one
    decodes to it again, exactly when its UTF-8 form is below `2 ^ 32` bytes; the
    decoders agree on every Bytes value, and a String they produce is encoded as
    the bytes it came from. -/
theorem utf8_paths_agree_iff_fits (s : ElmString) (b : ByteBuffer) :
    ((EncodersAgree s ∧ (WellFormed s.units →
        ∃ b : ByteBuffer, b.data = writeUtf8 s.form ∧ DecodersAgree b (some s.units)))
      ↔ (utf8Of s.units).length < 2 ^ 32)
    ∧ ∃ str, DecodersAgree b str ∧
      ∀ us ∈ str, ∀ s : ElmString, s.units = us →
        EncodersAgree s ∧ writeUtf8 s.form = b.data := by
  constructor
  · constructor
    · intro h
      exact (encodersAgree_iff_fits s).mp h.1
    · intro hfit
      refine ⟨(encodersAgree_iff_fits s).mpr hfit, ?_⟩
      intro hwf
      refine ⟨⟨utf8Of s.units, hfit⟩, (writeUtf8_eq s).symm, ?_⟩
      have h := decodersAgree_valid ⟨utf8Of s.units, hfit⟩ hwf rfl
      rw [unitsAll_codePoints] at h
      exact h
  · by_cases hv : Valid b.data
    · obtain ⟨cps, hsc, hbs⟩ := hv
      refine ⟨some (unitsAll cps), decodersAgree_valid b hsc hbs, ?_⟩
      intro us hus s hs
      have hform : utf8Of s.units = b.data := by
        rw [hs, ← Option.some.inj hus, utf8Of_unitsAll hsc, hbs]
      refine ⟨(encodersAgree_iff_fits s).mpr (by rw [hform]; exact b.size_lt), ?_⟩
      rw [writeUtf8_eq, hform]
    · refine ⟨none, decodersAgree_invalid b hv, ?_⟩
      intro us hus
      cases hus

/-- A String of `1431655766` copies of U+0800, three bytes each. -/
def wideString : ElmString where
  form := .utf16 (List.replicate 1431655766 0x800)
  ok := by
    show (List.replicate 1431655766 (0x800 : UInt16)).length < 2 ^ 32
    rw [List.length_replicate]
    omega

theorem utf8Of_replicate (k : Nat) :
    (utf8Of (List.replicate k (0x800 : UInt16))).length = 3 * k := by
  induction k with
  | zero => rfl
  | succ k ih =>
      have hstep : utf8Of (0x800 :: List.replicate k (0x800 : UInt16))
          = encodeCodePoint 0x800 ++ utf8Of (List.replicate k 0x800) := by
        cases k with
        | zero => rfl
        | succ k => exact utf8Of_unit _ (by decide)
      rw [List.replicate_succ, hstep, List.length_append, ih]
      show 3 + 3 * k = _
      omega

/-- On that String the `u32` width wraps to 2, and the encoders disagree. -/
theorem wideString_disagrees :
    (elm_utf8_width wideString.form).toNat = 2
      ∧ getStringWidth wideString.form = 4294967298
      ∧ ¬ EncodersAgree wideString := by
  have hlen : (utf8Of wideString.units).length = 4294967298 :=
    utf8Of_replicate 1431655766
  refine ⟨?_, ?_, ?_⟩
  · rw [elm_utf8_width_eq, hlen]
    norm_num
  · rw [getStringWidth_eq, hlen]
  · intro h
    have hfit := (encodersAgree_iff_fits wideString).mp h
    rw [hlen] at hfit
    omega

end Utf8Kernel

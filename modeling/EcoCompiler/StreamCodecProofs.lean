import EcoCompiler.StreamCodec
import EcoCompiler.Utf8KernelProofs
import EcoCompiler.Utf8Lossy

/-! # The text codecs do not depend on chunking

    What a codec has read of an unfinished sequence is part of what it still has to
    convert: a surrogate it carries (`carried`), the bytes of a partial code point (`Reads`).

    * `encodeUnits_spec` — a chunk of the encoder against `Utf8Spec.utf8Lossy`;
    * `Reads` — what the decoder's bounds say of a partial code point, and `decodeNext_spec`:
      how one byte moves them;
    * `decodeBytes_spec` — a chunk of the decoder against `Utf8Spec.decodeLossy`;
    * `textCodecs_any_cut` — every way of cutting the input gives the same text. -/

namespace StreamCodec

open Utf8Spec

/-! ## Code points to bytes -/

/-- The encoder writes a code point's UTF-8. -/
theorem appendUtf8_eq {cp : UInt32} (h : cp.toNat < 0x110000) :
    appendUtf8 cp = encodeCodePoint cp.toNat := by
  have hcont : ∀ x : UInt32, contByte x = UInt8.ofNat (0x80 ||| (x.toNat &&& 0x3F)) := by
    intro x
    rfl
  rw [← Utf8Kernel.copyStep_eq h, appendUtf8, Utf8Kernel.copyStep]
  simp only [UInt32.lt_iff_toNat_lt, hcont]
  rfl

theorem appendUtf8_replacement : appendUtf8 kReplacement = encodeCodePoint replacement :=
  appendUtf8_eq (by decide)

/-! ## The encoder -/

/-- What the encoder has read and not yet written. -/
def carried (c : CodecState) : List UInt16 :=
  if c.pendingHigh ≠ 0 then [c.pendingHigh] else []

/-- A text encoder carries nothing but a high surrogate. -/
structure Encoding (c : CodecState) : Prop where
  kind : c.kind = .textEncode
  high : c.pendingHigh ≠ 0 → IsHigh c.pendingHigh

theorem isHigh_iff (u : UInt16) : 0xD800 ≤ u ∧ u ≤ 0xDBFF ↔ IsHigh u := by
  rw [UInt16.le_iff_toNat_le, UInt16.le_iff_toNat_le]
  rfl

theorem isLow_iff (u : UInt16) : 0xDC00 ≤ u ∧ u ≤ 0xDFFF ↔ IsLow u := by
  rw [UInt16.le_iff_toNat_le, UInt16.le_iff_toNat_le]
  rfl

/-- A unit that is no surrogate is a scalar. -/
theorem isScalar_unit {u : UInt16} (hh : ¬ IsHigh u) (hl : ¬ IsLow u) : IsScalar u.toNat := by
  have := u.toNat_lt
  rw [IsHigh] at hh
  rw [IsLow] at hl
  rw [IsScalar]
  omega

/-- A unit that begins no pair is a code point of its own. -/
theorem codePoints_cons {u : UInt16} {us : List UInt16}
    (h : ∀ v rest, us = v :: rest → ¬ (IsHigh u ∧ IsLow v)) :
    codePoints (u :: us) = u.toNat :: codePoints us := by
  cases us with
  | nil => rfl
  | cons v rest => rw [codePoints, if_neg (h v rest rfl)]

/-- A scalar unit is written as it is. -/
theorem utf8Lossy_scalar {u : UInt16} {us : List UInt16} (hs : IsScalar u.toNat)
    (h : ¬ IsHigh u) : utf8Lossy (u :: us) = encodeCodePoint u.toNat ++ utf8Lossy us := by
  rw [utf8Lossy, codePoints_cons (fun _ _ _ hp => h hp.1), List.map_cons, encodeAll_cons,
    scalarOr, if_pos hs, utf8Lossy]

/-- A surrogate outside a pair is written as the replacement. -/
theorem utf8Lossy_lone {u : UInt16} {us : List UInt16} (hu : IsHigh u ∨ IsLow u)
    (h : ∀ v rest, us = v :: rest → ¬ (IsHigh u ∧ IsLow v)) :
    utf8Lossy (u :: us) = appendUtf8 kReplacement ++ utf8Lossy us := by
  have hns : ¬ IsScalar u.toNat := by
    rw [IsHigh, IsLow] at hu
    rw [IsScalar]
    omega
  rw [utf8Lossy, codePoints_cons h, List.map_cons, encodeAll_cons, scalarOr, if_neg hns,
    ← appendUtf8_replacement, utf8Lossy]

/-- A pair is written as one code point. -/
theorem utf8Lossy_pair {u v : UInt16} {us : List UInt16} (hu : IsHigh u) (hv : IsLow v) :
    utf8Lossy (u :: v :: us)
      = appendUtf8 (0x10000 + ((u.toUInt32 - 0xD800) <<< (10 : UInt32)) + (v.toUInt32 - 0xDC00))
        ++ utf8Lossy us := by
  have hval : (0x10000 + ((u.toUInt32 - 0xD800) <<< (10 : UInt32))
      + (v.toUInt32 - 0xDC00) : UInt32).toNat = pairValue u v := by
    obtain ⟨hu1, hu2⟩ := hu
    obtain ⟨hv1, hv2⟩ := hv
    have e1 : (u.toUInt32 - 0xD800).toNat = u.toNat - 0xD800 :=
      UInt32.toNat_sub_of_le _ _ (UInt32.le_iff_toNat_le.mpr hu1)
    have e2 : (v.toUInt32 - 0xDC00).toNat = v.toNat - 0xDC00 :=
      UInt32.toNat_sub_of_le _ _ (UInt32.le_iff_toNat_le.mpr hv1)
    have e3 : ((u.toUInt32 - 0xD800) <<< (10 : UInt32)).toNat = (u.toNat - 0xD800) * 0x400 := by
      have h10 : (10 : UInt32).toNat % 32 = 10 := rfl
      rw [UInt32.toNat_shiftLeft, e1, h10, Nat.shiftLeft_eq]
      exact Nat.mod_eq_of_lt (by omega)
    have e4 : (0x10000 : UInt32).toNat = 0x10000 := rfl
    have hpv : pairValue u v = 0x10000 + (u.toNat - 0xD800) * 0x400 + (v.toNat - 0xDC00) := rfl
    rw [UInt32.toNat_add, UInt32.toNat_add, e2, e3, e4, hpv]
    omega
  obtain ⟨hlow, hlt⟩ := Utf8Kernel.pairValue_bounds ⟨hu, hv⟩
  have hscalar : IsScalar (pairValue u v) := Or.inr ⟨by omega, hlt⟩
  rw [appendUtf8_eq (by rw [hval]; exact hlt), hval, utf8Lossy, codePoints,
    if_pos ⟨hu, hv⟩, List.map_cons, encodeAll_cons, scalarOr, if_pos hscalar, utf8Lossy]

/-- A unit without a high one before it: what is written now and what is carried on. -/
theorem encodeFresh_spec {c : CodecState} (ok : Encoding c) (none : c.pendingHigh = 0)
    (u : UInt16) :
    Encoding (encodeFresh c u).1 ∧
      ∀ us, utf8Lossy (u :: us)
        = (encodeFresh c u).2 ++ utf8Lossy (carried (encodeFresh c u).1 ++ us) := by
  have hcarried : carried c = [] := by rw [carried, if_neg (by rw [none]; decide)]
  rw [encodeFresh]
  by_cases hh : IsHigh u
  · have hne : u ≠ 0 := by
      rintro rfl
      exact absurd hh (by decide)
    rw [if_pos ((isHigh_iff u).mpr hh)]
    refine ⟨⟨ok.kind, fun _ => hh⟩, fun us => ?_⟩
    rw [carried, if_pos hne]
    rfl
  rw [if_neg (fun h => hh ((isHigh_iff u).mp h))]
  by_cases hl : IsLow u
  · rw [if_pos ((isLow_iff u).mpr hl), hcarried]
    exact ⟨ok, fun us => utf8Lossy_lone (Or.inr hl) fun _ _ _ hp => hh hp.1⟩
  · rw [if_neg (fun h => hl ((isLow_iff u).mp h)), hcarried]
    refine ⟨ok, fun us => ?_⟩
    have := u.toNat_lt
    rw [utf8Lossy_scalar (isScalar_unit hh hl) hh, appendUtf8_eq]
    · rfl
    · rw [UInt16.toNat_toUInt32]
      omega

/-- Any unit: what is written now and what is carried on. -/
theorem encodeUnit_spec {c : CodecState} (ok : Encoding c) (u : UInt16) :
    Encoding (encodeUnit c u).1 ∧
      ∀ us, utf8Lossy (carried c ++ u :: us)
        = (encodeUnit c u).2 ++ utf8Lossy (carried (encodeUnit c u).1 ++ us) := by
  rw [encodeUnit]
  by_cases hp : c.pendingHigh = 0
  · have hcarried : carried c = [] := by rw [carried, if_neg (by rw [hp]; decide)]
    rw [if_neg (not_not.mpr hp), hcarried]
    exact encodeFresh_spec ok hp u
  · have hhigh := ok.high hp
    have hcarried : carried c = [c.pendingHigh] := by rw [carried, if_pos hp]
    have ok' : Encoding { c with pendingHigh := 0 } := ⟨ok.kind, fun h => absurd rfl h⟩
    rw [if_pos hp, hcarried]
    by_cases hl : IsLow u
    · simp only [if_pos ((isLow_iff u).mpr hl)]
      refine ⟨ok', fun us => ?_⟩
      exact utf8Lossy_pair hhigh hl
    · simp only [if_neg (fun h => hl ((isLow_iff u).mp h))]
      obtain ⟨ok'', spec⟩ := encodeFresh_spec ok' rfl u
      refine ⟨ok'', fun us => ?_⟩
      rw [List.append_assoc, ← spec us]
      refine utf8Lossy_lone (Or.inl hhigh) fun v rest h => ?_
      obtain ⟨rfl, -⟩ := List.cons.inj h
      exact fun hp => hl hp.2

/-- One chunk of the encoder: what it writes and still carries converts like what it
    carried and read. -/
theorem encodeUnits_spec {c : CodecState} (ok : Encoding c) (units : List UInt16) :
    Encoding (encodeUnits c units).1 ∧
      ∀ us, utf8Lossy (carried c ++ units ++ us)
        = (encodeUnits c units).2 ++ utf8Lossy (carried (encodeUnits c units).1 ++ us) := by
  induction units generalizing c with
  | nil => exact ⟨ok, fun us => by rw [List.append_nil]; rfl⟩
  | cons u units ih =>
      obtain ⟨ok', first⟩ := encodeUnit_spec ok u
      obtain ⟨ok'', rest⟩ := ih ok'
      refine ⟨ok'', fun us => ?_⟩
      have h := rest us
      rw [List.append_assoc] at h
      rw [List.append_assoc, List.cons_append, first (units ++ us), h, ← List.append_assoc]
      rfl

theorem flatten_pushChunk (out : List (List UInt8)) (s : List UInt8) :
    (pushChunk out s).flatten = out.flatten ++ s := by
  rw [pushChunk]
  split_ifs with h
  · rw [List.flatten_append, List.flatten_singleton]
  · rw [not_not.mp h, List.append_nil]

/-- The flush writes what is carried. -/
theorem encode_flush {c : CodecState} (ok : Encoding c) (out : List (List UInt8)) :
    (codecFlush c out).2.1.flatten = out.flatten ++ utf8Lossy (carried c) := by
  rw [codecFlush, ok.kind]
  by_cases hp : c.pendingHigh = 0
  · simp only [if_neg (not_not.mpr hp), carried]
    exact (List.append_nil _).symm
  · simp only [if_pos hp, carried, List.flatten_append, List.flatten_singleton]
    rw [utf8Lossy_lone (Or.inl (ok.high hp)) (fun v rest h => by cases h)]
    simp [utf8Lossy, codePoints]

/-- Every chunk of a text encoder, then its flush. -/
theorem encode_run {c : CodecState} (ok : Encoding c) (chunks : List Chunk)
    (out : List (List UInt8)) :
    (codecRun c out chunks).flatten
      = out.flatten ++ utf8Lossy (carried c ++ chunks.flatMap Chunk.units) := by
  induction chunks generalizing c out with
  | nil =>
      rw [codecRun, encode_flush ok, List.flatMap_nil, List.append_nil]
  | cons ch chunks ih =>
      obtain ⟨ok', spec⟩ := encodeUnits_spec ok ch.units
      have hstep : codecTransform c ch out
          = ((encodeUnits c ch.units).1, pushChunk out (encodeUnits c ch.units).2, "") := by
        rw [codecTransform, ok.kind]
      rw [codecRun, hstep, ih ok', flatten_pushChunk, List.append_assoc, ← spec,
        List.flatMap_cons, List.append_assoc]

/-! ## The decoder -/

/-- The bytes `p` begin a code point, and the decoder's bounds say what completes it. -/
structure Within (c : CodecState) (p : List UInt8) : Prop where
  ne_nil : p ≠ []
  seen_lt : c.seen < c.needed
  lower_le : c.lower.toNat ≤ c.upper.toNat
  small : (c.cp.toNat + 1) * 0x40 ^ (c.needed - c.seen) ≤ 0x200000
  completes : ∀ t n, (IsScalar n ∧ encodeCodePoint n = p ++ t)
    ↔ Completes (c.needed - c.seen) c.lower.toNat c.upper.toNat c.cp.toNat t n

/-- What a text decoder has read of an unfinished code point. -/
structure Reads (c : CodecState) (p : List UInt8) : Prop where
  kind : c.kind = .textDecode
  between : c.needed = 0 → p = [] ∧ c.seen = 0 ∧ c.lower = 0x80 ∧ c.upper = 0xBF
  within : c.needed ≠ 0 → Within c p

/-- Inside a sequence the bytes so far are a truncated one. -/
theorem Within.truncated {c : CodecState} {p : List UInt8} (h : Within c p) : Truncated p := by
  obtain ⟨t, n, ht⟩ := exists_completes (c.needed - c.seen) c.cp.toNat h.lower_le
    c.upper.toNat_lt
  obtain ⟨hn, e⟩ := (h.completes t n).mpr ht
  refine ⟨n, t, hn, ?_, e⟩
  rintro rfl
  have hlen := ht.length_eq
  have := h.seen_lt
  rw [List.length_nil] at hlen
  omega

/-- The code points that reach the output: the first of all may be a byte order mark. -/
def shown (c : CodecState) (ns : List ℕ) : List ℕ := if c.bomChecked then ns else dropMark ns

/-- The decoder took the bytes `src` to the bytes `dst` that it still has to decode. -/
def Decodes (c : CodecState) (src : List UInt8) (r : CodecState × List UInt8)
    (dst : List UInt8) : Prop :=
  ∃ cps, r.2 = encodeAll cps ∧ AllScalar cps ∧
    ∀ more, shown c (decodeLossy (src ++ more)) = cps ++ shown r.1 (decodeLossy (dst ++ more))

/-- Encoding goes part by part. -/
theorem encodeAll_append (xs ys : List ℕ) :
    encodeAll (xs ++ ys) = encodeAll xs ++ encodeAll ys := List.flatMap_append

/-- Decoding goes on where it stopped. -/
theorem Decodes.trans {c : CodecState} {src mid dst x : List UInt8}
    {r r' : CodecState × List UInt8} (h : Decodes c src r mid)
    (h' : Decodes r.1 (mid ++ x) r' dst) : Decodes c (src ++ x) (r'.1, r.2 ++ r'.2) dst := by
  obtain ⟨cps, hout, hs, heq⟩ := h
  obtain ⟨cps', hout', hs', heq'⟩ := h'
  refine ⟨cps ++ cps', by rw [encodeAll_append, hout, hout'], ?_, fun more => ?_⟩
  · intro n hn
    rcases List.mem_append.mp hn with hn | hn
    · exact hs n hn
    · exact hs' n hn
  · rw [List.append_assoc, heq, ← List.append_assoc, heq', List.append_assoc]

/-- A step that writes nothing only moves bytes. -/
theorem Decodes.silent {c c' : CodecState} {src : List UInt8}
    (same : c'.bomChecked = c.bomChecked) : Decodes c src (c', []) src :=
  ⟨[], rfl, fun n hn => (List.not_mem_nil hn).elim, fun more => by
    rw [shown, shown, same]
    rfl⟩

/-- Emitting a code point marks the byte order mark as checked. -/
theorem emitDecoded_state (c : CodecState) (cp : UInt32) :
    (emitDecoded c cp).1 = { c with bomChecked := true } := by
  rw [emitDecoded]
  by_cases hbom : c.bomChecked = false
  · rw [if_pos hbom]
    split_ifs <;> rfl
  · rw [if_neg hbom, ← Bool.eq_true_of_not_eq_false hbom]

/-- Emitting a code point shows it, unless it is the mark. -/
theorem emitDecoded_spec (c : CodecState) {cp : UInt32} (hs : IsScalar cp.toNat) :
    ∃ cps, (emitDecoded c cp).2 = encodeAll cps ∧ AllScalar cps ∧
      ∀ ns, shown c (cp.toNat :: ns) = cps ++ shown (emitDecoded c cp).1 ns := by
  have hlt : cp.toNat < 0x110000 := by
    rcases hs with h | h <;> omega
  have hone : AllScalar [cp.toNat] := by
    intro n hn
    rw [List.mem_singleton.mp hn]
    exact hs
  have hbytes : appendUtf8 cp = encodeAll [cp.toNat] := by
    rw [appendUtf8_eq hlt, encodeAll_cons, encodeAll_nil, List.append_nil]
  have hshown : ∀ ns, shown (emitDecoded c cp).1 ns = ns := by
    intro ns
    rw [emitDecoded_state]
    rfl
  simp only [hshown]
  rw [emitDecoded]
  by_cases hbom : c.bomChecked = false
  · rw [if_pos hbom]
    by_cases hmark : cp = 0xFEFF
    · rw [if_pos hmark]
      refine ⟨[], rfl, fun n hn => (List.not_mem_nil hn).elim, fun ns => ?_⟩
      rw [shown, hbom, hmark]
      rfl
    · rw [if_neg hmark]
      refine ⟨[cp.toNat], hbytes, hone, fun ns => ?_⟩
      have hne : cp.toNat ≠ 0xFEFF := fun h => hmark (UInt32.toNat_inj.mp h)
      rw [shown, hbom, if_neg (by decide), dropMark, if_neg hne]
      rfl
  · rw [if_neg hbom]
    refine ⟨[cp.toNat], hbytes, hone, fun ns => ?_⟩
    rw [shown, if_pos (Bool.eq_true_of_not_eq_false hbom)]
    rfl

/-- A code point that has been read whole is emitted. -/
theorem Decodes.emit (c : CodecState) {c' : CodecState} {cp : UInt32} {n : ℕ}
    (value : cp.toNat = n) (hn : IsScalar n) (same : c'.bomChecked = c.bomChecked) :
    Decodes c (encodeCodePoint n) (emitDecoded c' cp) [] := by
  subst value
  obtain ⟨cps, hout, hs, heq⟩ := emitDecoded_spec c' hn
  refine ⟨cps, hout, hs, fun more => ?_⟩
  rw [decodeLossy_encode hn, List.nil_append, ← heq, shown, shown, same]

/-- Bytes that cannot be decoded are replaced. -/
theorem Decodes.replace (c : CodecState) {c' : CodecState} {src dst : List UInt8}
    (h : ∀ more, decodeLossy (src ++ more) = replacement :: decodeLossy (dst ++ more))
    (same : c'.bomChecked = c.bomChecked) :
    Decodes c src (emitDecoded c' kReplacement) dst := by
  obtain ⟨cps, hout, hs, heq⟩ :=
    emitDecoded_spec c' (by decide : IsScalar kReplacement.toNat)
  refine ⟨cps, hout, hs, fun more => ?_⟩
  rw [h more, ← heq, shown, shown, same]
  rfl

/-- After a code point the decoder is between two of them. -/
theorem Reads.emitted {c : CodecState} (kind : c.kind = .textDecode) (needed : c.needed = 0)
    (seen : c.seen = 0) (lower : c.lower = 0x80) (upper : c.upper = 0xBF) (cp : UInt32) :
    Reads (emitDecoded c cp).1 [] := by
  rw [emitDecoded_state]
  exact ⟨kind, fun _ => ⟨rfl, seen, lower, upper⟩, fun h => absurd needed h⟩

/-- After a code point the decoder reads from the start. -/
theorem Reads.reset {c : CodecState} {p : List UInt8} (h : Reads c p) (cp : UInt32) :
    Reads (emitDecoded (resetDecoder c) cp).1 [] :=
  Reads.emitted (c := resetDecoder c) h.kind rfl rfl rfl rfl cp

/-- The payload bits of a byte are a remainder. -/
theorem payload (b : UInt8) (m : UInt8) (k : ℕ) (hm : m.toNat = 2 ^ k - 1) :
    (b &&& m).toUInt32.toNat = b.toNat % 2 ^ k := by
  rw [UInt8.toNat_toUInt32, UInt8.toNat_and, hm, Nat.and_two_pow_sub_one_eq_mod]

theorem bound_toNat (b k x y : UInt8) :
    (if b = k then x else y).toNat = if b.toNat = k.toNat then x.toNat else y.toNat := by
  by_cases h : b = k
  · rw [if_pos h, if_pos (congrArg UInt8.toNat h)]
  · rw [if_neg h, if_neg (fun e => h (UInt8.toNat_inj.mp e))]

/-- The first byte of a sequence. -/
theorem decodeLead_spec {c : CodecState} (reads : Reads c []) (between : c.needed = 0)
    (b : UInt8) :
    ∃ p, Reads (decodeLead c b).1 p ∧ Decodes c [b] (decodeLead c b) p := by
  obtain ⟨-, seen, lower, upper⟩ := reads.between between
  rw [decodeLead]
  -- the ranges are tried in the order of the source: one byte, then leads of two, three and four
  by_cases h1 : b ≤ 0x7F
  · rw [if_pos h1]
    have hb : b.toNat ≤ 0x7F := UInt8.le_iff_toNat_le.mp h1
    obtain ⟨hn, e⟩ := (completes_one (by omega) [] b.toNat).mpr ⟨rfl, rfl⟩
    refine ⟨[], Reads.emitted reads.kind between seen lower upper _, ?_⟩
    rw [← e]
    exact Decodes.emit c (UInt8.toNat_toUInt32 b) hn rfl
  rw [if_neg h1]
  have hb : 0x80 ≤ b.toNat := by
    rw [UInt8.le_iff_toNat_le] at h1
    exact Nat.lt_of_not_le h1
  by_cases h2 : 0xC2 ≤ b ∧ b ≤ 0xDF
  · rw [if_pos h2]
    obtain ⟨h21, h22⟩ := h2
    rw [UInt8.le_iff_toNat_le] at h21 h22
    have hcp := payload b 0x1F 5 rfl
    refine ⟨[b], ⟨reads.kind, fun h => absurd h (Nat.succ_ne_zero _), fun _ => ?_⟩,
      Decodes.silent rfl⟩
    refine ⟨by simp, by simp [seen], by simp [lower, upper], ?_, ?_⟩
    · simp only [seen, hcp]
      omega
    · intro t n
      simp only [seen, lower, upper, hcp]
      exact completes_two h21 h22 t n
  rw [if_neg h2]
  by_cases h3 : 0xE0 ≤ b ∧ b ≤ 0xEF
  · rw [if_pos h3]
    obtain ⟨h31, h32⟩ := h3
    rw [UInt8.le_iff_toNat_le] at h31 h32
    have hcp := payload b 0x0F 4 rfl
    -- E0 and ED narrow the range of the second byte: no overlong form, no surrogate
    have hlo : (if b = 0xE0 then (0xA0 : UInt8) else c.lower).toNat
        = if b.toNat = 0xE0 then 0xA0 else 0x80 := by
      rw [lower]
      exact bound_toNat b 0xE0 0xA0 0x80
    have hhi : (if b = 0xED then (0x9F : UInt8) else c.upper).toNat
        = if b.toNat = 0xED then 0x9F else 0xBF := by
      rw [upper]
      exact bound_toNat b 0xED 0x9F 0xBF
    refine ⟨[b], ⟨reads.kind, fun h => absurd h (Nat.succ_ne_zero _), fun _ => ?_⟩,
      Decodes.silent rfl⟩
    refine ⟨by simp, by simp [seen], ?_, ?_, ?_⟩
    · simp only [hlo, hhi]
      split_ifs <;> omega
    · simp only [seen, hcp]
      omega
    · intro t n
      simp only [seen, hlo, hhi, hcp]
      exact completes_three h31 h32 t n
  rw [if_neg h3]
  by_cases h4 : 0xF0 ≤ b ∧ b ≤ 0xF4
  · rw [if_pos h4]
    obtain ⟨h41, h42⟩ := h4
    rw [UInt8.le_iff_toNat_le] at h41 h42
    have hcp := payload b 0x07 3 rfl
    -- F0 and F4 narrow it: no overlong form, nothing above 10FFFF
    have hlo : (if b = 0xF0 then (0x90 : UInt8) else c.lower).toNat
        = if b.toNat = 0xF0 then 0x90 else 0x80 := by
      rw [lower]
      exact bound_toNat b 0xF0 0x90 0x80
    have hhi : (if b = 0xF4 then (0x8F : UInt8) else c.upper).toNat
        = if b.toNat = 0xF4 then 0x8F else 0xBF := by
      rw [upper]
      exact bound_toNat b 0xF4 0x8F 0xBF
    refine ⟨[b], ⟨reads.kind, fun h => absurd h (Nat.succ_ne_zero _), fun _ => ?_⟩,
      Decodes.silent rfl⟩
    refine ⟨by simp, by simp [seen], ?_, ?_, ?_⟩
    · simp only [hlo, hhi]
      split_ifs <;> omega
    · simp only [seen, hcp]
      omega
    · intro t n
      simp only [seen, hlo, hhi, hcp]
      exact completes_four h41 h42 t n
  · rw [if_neg h4]
    refine ⟨[], Reads.emitted reads.kind between seen lower upper _, ?_⟩
    -- any other byte is replaced by itself
    refine Decodes.replace c (fun more => ?_) rfl
    refine decodeLossy_bad fun n t hn => not_lead hb ?_ hn t
    simp only [UInt8.le_iff_toNat_le] at h2 h3 h4
    have e1 : (0xC2 : UInt8).toNat = 0xC2 := rfl
    have e2 : (0xDF : UInt8).toNat = 0xDF := rfl
    have e3 : (0xE0 : UInt8).toNat = 0xE0 := rfl
    have e4 : (0xEF : UInt8).toNat = 0xEF := rfl
    have e5 : (0xF0 : UInt8).toNat = 0xF0 := rfl
    have e6 : (0xF4 : UInt8).toNat = 0xF4 := rfl
    omega

/-- A continuation byte's payload is shifted in. -/
theorem shiftIn (cp : UInt32) (b : UInt8) (h : (cp.toNat + 1) * 0x40 ≤ 0x200000) :
    ((cp <<< (6 : UInt32)) ||| (b &&& 0x3F).toUInt32).toNat
      = cp.toNat * 0x40 + b.toNat % 0x40 := by
  have h6 : (6 : UInt32).toNat % 32 = 6 := rfl
  have hb : b.toNat % 0x40 < 2 ^ 6 := Nat.mod_lt _ (by decide)
  have hor := Nat.two_pow_add_eq_or_of_lt hb cp.toNat
  rw [UInt32.toNat_or, payload b 0x3F 6 rfl, UInt32.toNat_shiftLeft, h6, Nat.shiftLeft_eq,
    Nat.mod_eq_of_lt (by omega), mul_comm]
  exact hor.symm.trans (by rw [mul_comm])

/-- The code point so far leaves room for one more byte. -/
theorem Within.bound {c : CodecState} {p : List UInt8} (h : Within c p) :
    (c.cp.toNat + 1) * 0x40 ≤ 0x200000 := by
  have hlt := h.seen_lt
  refine le_trans (Nat.mul_le_mul_left _ ?_) h.small
  exact Nat.le_self_pow (by omega) 0x40

/-- A byte within the bounds continues the sequence. -/
theorem decodeNext_spec {c : CodecState} {p : List UInt8} (reads : Reads c p)
    (inside : c.needed ≠ 0) {b : UInt8} (hb : ¬ (b < c.lower ∨ c.upper < b)) :
    ∃ p', Reads (decodeNext c b).1 p' ∧ Decodes c (p ++ [b]) (decodeNext c b) p' := by
  have within := reads.within inside
  have hlt := within.seen_lt
  obtain ⟨hlo, hhi⟩ := not_or.mp hb
  rw [UInt8.lt_iff_toNat_lt, not_lt] at hlo hhi
  have value := shiftIn c.cp b within.bound
  -- what completes `p ++ [b]` is what completes `p`, with `b` in front
  have completes : ∀ t n, (IsScalar n ∧ encodeCodePoint n = (p ++ [b]) ++ t)
      ↔ Completes (c.needed - (c.seen + 1)) 0x80 0xBF
          (c.cp.toNat * 0x40 + b.toNat % 0x40) t n := by
    intro t n
    have h := within.completes (b :: t) n
    rw [show c.needed - c.seen = c.needed - (c.seen + 1) + 1 by omega, Completes] at h
    rw [List.append_assoc, List.singleton_append, h]
    exact and_iff_right ⟨hlo, hhi⟩
  rw [decodeNext]
  by_cases hlast : c.seen + 1 = c.needed
  · simp only [if_pos hlast]
    have hzero : c.needed - (c.seen + 1) = 0 := by omega
    have h := completes [] (c.cp.toNat * 0x40 + b.toNat % 0x40)
    rw [hzero, List.append_nil] at h
    obtain ⟨hn, e⟩ := h.mpr ⟨rfl, rfl⟩
    refine ⟨[], Reads.emitted ?_ ?_ ?_ ?_ ?_ _, ?_⟩
    · exact reads.kind
    · rfl
    · rfl
    · rfl
    · rfl
    · rw [← e]
      exact Decodes.emit c value hn rfl
  · simp only [if_neg hlast]
    refine ⟨p ++ [b], ⟨reads.kind, fun h => absurd h inside, fun _ => ?_⟩, Decodes.silent rfl⟩
    refine ⟨by simp, ?_, by simp, ?_, ?_⟩
    · show c.seen + 1 < c.needed
      omega
    · show (((c.cp <<< (6 : UInt32)) ||| (b &&& 0x3F).toUInt32).toNat + 1)
        * 0x40 ^ (c.needed - (c.seen + 1)) ≤ 0x200000
      have small := within.small
      rw [show c.needed - c.seen = c.needed - (c.seen + 1) + 1 by omega, pow_succ,
        mul_comm (0x40 ^ (c.needed - (c.seen + 1))) 0x40, ← mul_assoc] at small
      rw [value]
      exact le_trans (Nat.mul_le_mul_right _ (by omega)) small
    · intro t n
      show _ ↔ Completes (c.needed - (c.seen + 1)) 0x80 0xBF
        ((c.cp <<< (6 : UInt32)) ||| (b &&& 0x3F).toUInt32).toNat t n
      rw [value]
      exact completes t n

/-- A byte outside the bounds cuts the sequence, and is read again. -/
theorem decodeCut_spec {c : CodecState} {p : List UInt8} (reads : Reads c p)
    (inside : c.needed ≠ 0) {b : UInt8} (hb : b < c.lower ∨ c.upper < b) :
    Decodes c (p ++ [b]) (emitDecoded (resetDecoder c) kReplacement) [b] := by
  have within := reads.within inside
  have hlt := within.seen_lt
  refine Decodes.replace c (fun more => ?_) rfl
  rw [List.append_assoc, List.singleton_append]
  refine decodeLossy_cut within.ne_nil within.truncated fun n t hn e => ?_
  have h := (within.completes (b :: t) n).mp ⟨hn, e⟩
  rw [show c.needed - c.seen = c.needed - (c.seen + 1) + 1 by omega, Completes] at h
  rw [UInt8.lt_iff_toNat_lt, UInt8.lt_iff_toNat_lt] at hb
  omega

/-- One chunk of the decoder: what it writes and still has to decode is what it had to
    decode and read. -/
theorem decodeBytes_spec {c : CodecState} {p : List UInt8} (reads : Reads c p)
    (bytes : List UInt8) :
    ∃ p', Reads (decodeBytes c bytes).1 p' ∧
      Decodes c (p ++ bytes) (decodeBytes c bytes) p' := by
  induction c, bytes using decodeBytes.induct generalizing p with
  | case1 c =>
      rw [decodeBytes, List.append_nil]
      exact ⟨p, reads, Decodes.silent rfl⟩
  | case2 c b rest between r =>
      rename_i ih
      obtain ⟨rfl, -⟩ := reads.between between
      obtain ⟨p₁, reads₁, first⟩ := decodeLead_spec reads between b
      obtain ⟨p₂, reads₂, later⟩ := ih reads₁
      rw [decodeBytes, if_pos between]
      exact ⟨p₂, reads₂, first.trans later⟩
  | case3 c b rest inside hb r =>
      rename_i ih
      have first := decodeCut_spec reads inside hb
      obtain ⟨p₂, reads₂, later⟩ := ih (reads.reset kReplacement)
      rw [decodeBytes, if_neg inside, if_pos hb]
      rw [show p ++ b :: rest = p ++ [b] ++ rest by simp]
      exact ⟨p₂, reads₂, first.trans later⟩
  | case4 c b rest inside hb r =>
      rename_i ih
      obtain ⟨p₁, reads₁, first⟩ := decodeNext_spec reads inside hb
      obtain ⟨p₂, reads₂, later⟩ := ih reads₁
      rw [decodeBytes, if_neg inside, if_neg hb]
      rw [show p ++ b :: rest = p ++ [b] ++ rest by simp]
      exact ⟨p₂, reads₂, first.trans later⟩

/-! ## Texts -/

/-- The chunks are the UTF-8 forms of pieces of the text `cps`, in order. -/
def Writes (out : List (List UInt8)) (cps : List ℕ) : Prop :=
  ∃ pieces : List (List ℕ), out = pieces.map encodeAll ∧ (∀ ns ∈ pieces, AllScalar ns) ∧
    pieces.flatten = cps

/-- A pushed chunk writes its code points after the others. -/
theorem Writes.push {out : List (List UInt8)} {cps ns : List ℕ} (h : Writes out cps)
    (hs : AllScalar ns) : Writes (pushChunk out (encodeAll ns)) (cps ++ ns) := by
  obtain ⟨pieces, rfl, scalar, rfl⟩ := h
  rw [pushChunk]
  split_ifs with hne
  · refine ⟨pieces ++ [ns], ?_, ?_, ?_⟩
    · rw [List.map_append, List.map_singleton]
    · intro ms hms
      rcases List.mem_append.mp hms with hms | hms
      · exact scalar ms hms
      · rw [List.mem_singleton.mp hms]
        exact hs
    · rw [List.flatten_append, List.flatten_singleton]
  · have hnil : ns = [] := by
      cases ns with
      | nil => rfl
      | cons n ns =>
          rw [not_not, encodeAll_cons] at hne
          exact absurd (List.append_eq_nil_iff.mp hne).1 (encodeCodePoint_ne_nil n)
    exact ⟨pieces, rfl, scalar, by rw [hnil, List.append_nil]⟩

/-- The flush of a text decoder replaces what is unfinished. -/
theorem decode_flush {c : CodecState} {p : List UInt8} (reads : Reads c p)
    {out : List (List UInt8)} {cps : List ℕ} (h : Writes out cps) :
    Writes (codecFlush c out).2.1 (cps ++ shown c (decodeLossy p)) := by
  rw [codecFlush, reads.kind]
  by_cases between : c.needed = 0
  · simp only [if_neg (not_not.mpr between)]
    obtain ⟨rfl, -⟩ := reads.between between
    have hnone : shown c [] = [] := by
      rw [shown, dropMark]
      split_ifs <;> rfl
    rw [decodeLossy_nil, hnone, List.append_nil]
    exact h
  · simp only [if_pos between]
    have within := reads.within between
    obtain ⟨ns, hout, hs, heq⟩ :=
      emitDecoded_spec (resetDecoder c) (by decide : IsScalar kReplacement.toNat)
    have hns : shown c [replacement] = ns := by
      have e := heq []
      have hnone : shown (emitDecoded (resetDecoder c) kReplacement).1 [] = [] := by
        rw [emitDecoded_state]
        rfl
      rw [hnone, List.append_nil] at e
      exact e
    rw [decodeLossy_truncated within.ne_nil within.truncated, hns, hout]
    exact h.push hs

/-- Every chunk of a text decoder, then its flush. -/
theorem decode_run {c : CodecState} {p : List UInt8} (reads : Reads c p) (chunks : List Chunk)
    {out : List (List UInt8)} {cps : List ℕ} (h : Writes out cps) :
    Writes (codecRun c out chunks)
      (cps ++ shown c (decodeLossy (p ++ chunks.flatMap Chunk.bytes))) := by
  induction chunks generalizing c p out cps with
  | nil =>
      rw [codecRun, List.flatMap_nil, List.append_nil]
      exact decode_flush reads h
  | cons ch chunks ih =>
      obtain ⟨p', reads', ns, hout, hs, heq⟩ := decodeBytes_spec reads ch.bytes
      have hstep : codecTransform c ch out
          = ((decodeBytes c ch.bytes).1, pushChunk out (decodeBytes c ch.bytes).2, "") := by
        rw [codecTransform, reads.kind]
      rw [codecRun, hstep, List.flatMap_cons, ← List.append_assoc, heq, ← List.append_assoc]
      rw [hout]
      exact ih reads' (h.push hs)

/-- The outputs of a text encoder for all chunks of a stream and the flush. -/
theorem encoder_text (chunks : List Chunk) :
    (codecRun newTextEncoder [] chunks).flatten
      = utf8Lossy (chunks.flatMap Chunk.units) :=
  encode_run (c := newTextEncoder) ⟨rfl, fun h => absurd rfl h⟩ chunks []

/-- The outputs of a text decoder for all chunks of a stream and the flush. -/
theorem decoder_text (chunks : List Chunk) :
    Writes (codecRun newTextDecoder [] chunks) (decodeUtf8 (chunks.flatMap Chunk.bytes)) := by
  rw [decodeUtf8_eq]
  refine decode_run (c := newTextDecoder) (p := []) ⟨rfl, fun _ => ⟨rfl, rfl, rfl, rfl⟩, ?_⟩
    chunks ⟨[], rfl, fun ns h => (List.not_mem_nil h).elim, rfl⟩
  exact fun h => absurd rfl h

/-- A text that does not begin with U+FEFF has no code point U+FEFF in front. -/
theorem dropMark_codePoints {us : List UInt16} (h : us.head? ≠ some 0xFEFF) :
    dropMark (codePoints us) = codePoints us := by
  have hfirst : ∀ n ns, codePoints us = n :: ns → n ≠ 0xFEFF := by
    rintro n ns e rfl
    have hus := unitsAll_codePoints us
    rw [e, unitsAll_cons] at hus
    rw [← hus] at h
    exact h rfl
  cases e : codePoints us with
  | nil => rfl
  | cons n ns => rw [dropMark, if_neg (hfirst n ns e)]

/-- The text codecs do not depend on how their input is cut: the encoder writes the UTF-8
    form of the whole, the decoder the decoding of the whole, and decoding what the encoder
    wrote for a well-formed text without a leading U+FEFF gives the text back. -/
theorem textCodecs_any_cut :
    (∀ chunks, (codecRun newTextEncoder [] chunks).flatten
      = utf8Lossy (chunks.flatMap Chunk.units)) ∧
    (∀ chunks, Writes (codecRun newTextDecoder [] chunks)
      (decodeUtf8 (chunks.flatMap Chunk.bytes))) ∧
    ∀ chunks chunks', WellFormed (chunks.flatMap Chunk.units) →
      (chunks.flatMap Chunk.units).head? ≠ some 0xFEFF →
      chunks'.flatMap Chunk.bytes = (codecRun newTextEncoder [] chunks).flatten →
      ∃ cps, Writes (codecRun newTextDecoder [] chunks') cps ∧
        unitsAll cps = chunks.flatMap Chunk.units := by
  refine ⟨encoder_text, decoder_text, fun chunks chunks' formed unmarked cut => ?_⟩
  refine ⟨_, decoder_text chunks', ?_⟩
  rw [cut, encoder_text, utf8Lossy_wellFormed formed, utf8Of, decodeUtf8_eq,
    decodeLossy_encodeAll formed, dropMark_codePoints unmarked, unitsAll_codePoints]

/-- The two halves of a pair in two chunks, and its four bytes in two. -/
theorem textCodecs_any_cut_pair :
    ∃ cps, Writes (codecRun newTextDecoder []
        [⟨[0xF0, 0x9F], []⟩, ⟨[0x98, 0x80], []⟩]) cps ∧ unitsAll cps = [0xD83D, 0xDE00] :=
  textCodecs_any_cut.2.2 [⟨[], [0xD83D]⟩, ⟨[], [0xDE00]⟩]
    [⟨[0xF0, 0x9F], []⟩, ⟨[0x98, 0x80], []⟩]
    (show ∀ n ∈ codePoints [0xD83D, 0xDE00], IsScalar n by decide) (by decide) (by decide)

end StreamCodec

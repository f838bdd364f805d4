import EcoCompiler.StringForms

/-! # What the String operations stand for

    Each way to make a String makes one that stands for the units it was given, whatever form
    it chooses; so `split` and `join` are read on units, where the searches stop at the cuts. -/

namespace StringOps

open Horspool

variable (cfg : HeapConfig)

@[simp] theorem units_none : units none = [] := rfl

@[simp] theorem units_some (s : Str) : units (some s) = s.units := rfl

/-- A String has as many units as its size says. -/
theorem length_units (s : Option Str) : (units s).length = sizeOf s := by
  cases s with
  | none => rfl
  | some s => exact s.length_units

/-- Only the empty String has no units. -/
theorem units_eq_nil_iff {s : Option Str} : units s = [] ↔ sizeOf s = 0 := by
  rw [← length_units, List.length_eq_zero_iff]

/-- The segments of a String are its units. -/
@[simp] theorem segmentsOf_eq (s : Option Str) : segmentsOf s = units s := by
  cases s with
  | none => rfl
  | some s => exact toStdU16String_eq s

/-! ## Bytes and units -/

/-- A byte widened keeps its value. -/
theorem toNat_widen (b : Ascii) : (widen b).toNat = b.val.toNat := by
  have h := b.property
  rw [widen, UInt16.toNat_ofNat', Nat.mod_eq_of_lt (by omega)]

/-- Bytes are as different as their units. -/
theorem widen_injective : widen.Injective := by
  intro a b h
  have hval := congrArg UInt16.toNat h
  rw [toNat_widen, toNat_widen] at hval
  exact Subtype.ext (UInt8.toNat_inj.mp hval)

/-- A unit below `0x80` is a byte. -/
theorem widen_narrow {u : UInt16} (h : u.toNat < 0x80) : widen (narrow u) = u := by
  apply UInt16.toNat_inj.mp
  rw [toNat_widen, narrow, UInt8.toNat_ofNat', Nat.mod_eq_of_lt h, Nat.mod_eq_of_lt (by omega)]

/-! ## Making a String -/

/-- A String allocated of units has them. -/
@[simp] theorem units_allocString (chars : List UInt16) :
    units (allocString cfg chars) = chars := by
  rw [allocString]
  split
  · next h => exact (List.length_eq_zero_iff.mp h).symm
  · split <;> rfl

/-- A leaf of bytes has their units. -/
@[simp] theorem units_makeUtf8LeafFromBytes (bytes : List Ascii) :
    units (makeUtf8LeafFromBytes cfg bytes) = bytes.map widen := by
  rw [makeUtf8LeafFromBytes]
  split
  · next h => rw [List.length_eq_zero_iff.mp h]; rfl
  · split
    · exact units_allocString cfg _
    · split
      · exact units_allocString cfg _
      · rfl

/-- A view has the units of its part of the base. -/
@[simp] theorem units_makeUtf8View (base : List Ascii) (byteOffset len : ℕ)
    (inside : byteOffset + len ≤ base.length) : units (makeUtf8View base byteOffset len inside)
      = ((base.drop byteOffset).take len).map widen := by
  rw [makeUtf8View]
  split
  · next h => rw [h]; simp
  · rfl

/-- A String of bytes has their units, in either form. -/
@[simp] theorem units_asciiOut (bytes : List Ascii) :
    units (asciiOut cfg bytes) = bytes.map widen := by
  rw [asciiOut]
  split
  · rfl
  · simp

/-- The accumulated units are below 0x80 only when each is. -/
theorem lt_of_foldl_or {chars : List UInt16} {acc : UInt16}
    (h : (chars.foldl (· ||| ·) acc).toNat < 0x80) :
    acc.toNat < 0x80 ∧ ∀ u ∈ chars, u.toNat < 0x80 := by
  induction chars generalizing acc with
  | nil => exact ⟨h, fun u hu => absurd hu List.not_mem_nil⟩
  | cons c chars ih =>
    obtain ⟨hacc, hchars⟩ := ih h
    rw [UInt16.toNat_or] at hacc
    refine ⟨lt_of_le_of_lt Nat.left_le_or hacc, fun u hu => ?_⟩
    rcases List.mem_cons.mp hu with rfl | hu
    · exact lt_of_le_of_lt Nat.right_le_or hacc
    · exact hchars u hu

/-- Storing units as bytes where that is possible keeps them. -/
@[simp] theorem units_healAsciiResult (chars : List UInt16) :
    units (healAsciiResult cfg chars) = chars := by
  rw [healAsciiResult]
  split
  · rfl
  · dsimp only
    split
    · rfl
    · next h =>
      have hacc : (chars.foldl (· ||| ·) 0).toNat < 0x80 := by omega
      have hchars := (lt_of_foldl_or hacc).2
      rw [units_asciiOut, List.map_map]
      calc chars.map (widen ∘ narrow) = chars.map id :=
            List.map_congr_left fun u hu => widen_narrow (hchars u hu)
        _ = chars := List.map_id _

/-- A rope has the units of its two sides. -/
@[simp] theorem units_makeRope (left right : Option Str) :
    units (makeRope left right) = units left ++ units right := by
  rcases left with _ | l <;> rcases right with _ | r
  · rfl
  · rw [makeRope]
    split
    · next h => simpa using (List.length_eq_zero_iff.mp (r.length_units.trans h)).symm
    · rfl
  · rw [makeRope]
    split
    · next h => simpa using (List.length_eq_zero_iff.mp (l.length_units.trans h)).symm
    · simp
  · rw [makeRope]
    split
    · next h =>
      simp [List.length_eq_zero_iff.mp (l.length_units.trans h.1),
        List.length_eq_zero_iff.mp (r.length_units.trans h.2)]
    · split
      · next h => simp [List.length_eq_zero_iff.mp (l.length_units.trans h)]
      · split
        · next h => simp [List.length_eq_zero_iff.mp (r.length_units.trans h)]
        · rfl

/-! ## The balanced rope -/

/-- What a stack stands for, its top last. -/
def stackUnits (stack : List (Option Str)) : List UInt16 := (stack.reverse.map units).flatten

/-- The units of a stack, with those of its top last. -/
theorem stackUnits_cons (top : Option Str) (stack : List (Option Str)) :
    stackUnits (top :: stack) = stackUnits stack ++ units top := by
  simp [stackUnits]

/-- Joining the top of the stack keeps its units. -/
theorem stackUnits_mergeTop (stack : List (Option Str)) :
    stackUnits (mergeTop stack) = stackUnits stack := by
  induction stack using mergeTop.induct with
  | case1 top next rest h => rw [mergeTop, if_pos h]
  | case2 top next rest h ih =>
    rw [mergeTop, if_neg h, ih]
    simp [stackUnits_cons]
  | case3 stack h => rw [mergeTop]; exact h

/-- Joining a whole stack keeps its units. -/
theorem units_mergeAll (stack : List (Option Str)) : units (mergeAll stack) = stackUnits stack := by
  induction stack using mergeAll.induct with
  | case1 top next rest ih =>
    rw [mergeAll, ih]
    simp [stackUnits_cons]
  | case2 one => simp [mergeAll, stackUnits]
  | case3 => simp [mergeAll, stackUnits]

/-- A balanced rope has the units of its parts, in their order. -/
@[simp] theorem units_buildBalancedRope (parts : List (Option Str)) :
    units (buildBalancedRope parts) = (parts.map units).flatten := by
  have push : ∀ (parts stack : List (Option Str)),
      stackUnits (parts.foldl (fun stack hp => mergeTop (hp :: stack)) stack)
        = stackUnits stack ++ (parts.map units).flatten := by
    intro parts
    induction parts with
    | nil => simp
    | cons hp parts ih =>
      intro stack
      rw [List.foldl_cons, ih, stackUnits_mergeTop, stackUnits_cons]
      simp
  rcases parts with _ | ⟨one, _ | ⟨two, more⟩⟩
  · rfl
  · simp [buildBalancedRope]
  · change units (mergeAll _) = _
    rw [units_mergeAll, push]
    simp [stackUnits]

/-! ## Slices -/

/-- Cutting the bounds to the length changes no slice. -/
theorem take_drop_min {α : Type} (l : List α) (start0 end0 : ℕ) :
    (l.drop (min start0 l.length)).take (min end0 l.length - min start0 l.length)
      = (l.drop start0).take (end0 - start0) := by
  rcases Nat.le_total l.length start0 with h | h
  · rw [Nat.min_eq_right h, List.drop_length, List.drop_eq_nil_of_le h]
    simp
  · rw [Nat.min_eq_left h, List.take_eq_take_iff, List.length_drop]
    omega

/-- A slice of a byte String has the units between its bounds. -/
theorem units_slice (s : Utf8) (start0 end0 : ℕ) :
    units (s.slice cfg start0 end0)
      = (((utf8Bytes s).drop start0).take (end0 - start0)).map widen := by
  have hmin := take_drop_min (utf8Bytes s) start0 end0
  rw [s.length_bytes] at hmin
  rw [← hmin, Utf8.slice.eq_def]
  dsimp only
  split
  · next h => rw [Nat.sub_eq_zero_of_le h]; rfl
  · split
    · next h =>
      rw [h.1, h.2, ← s.length_bytes, Nat.sub_zero, List.drop_zero, List.take_length]
      rfl
    · split
      · exact units_makeUtf8LeafFromBytes cfg _
      · cases s with
        | leaf bytes => simp [Utf8.size, utf8Bytes]
        | view base offset byteLen inside =>
          simp only [Utf8.size, utf8Bytes, units_makeUtf8View]
          rw [List.drop_take, List.take_take, List.drop_drop]
          congr 2
          omega

/-! ## Code points -/

/-- Units read as code points: a surrogate pair is one, and so is any other unit. -/
inductive CodePoints : List UInt16 → List (List UInt16) → Prop where
  | nil : CodePoints [] []
  | pair {u v : UInt16} {rest : List UInt16} {points : List (List UInt16)}
      (hu : isHighSurrogate u.toNat) (hv : isLowSurrogate v.toNat) (more : CodePoints rest points) :
      CodePoints (u :: v :: rest) ([u, v] :: points)
  | unit {u : UInt16} {rest : List UInt16} {points : List (List UInt16)}
      (hsingle : ∀ v ∈ rest.head?, ¬ (isHighSurrogate u.toNat ∧ isLowSurrogate v.toNat))
      (more : CodePoints rest points) : CodePoints (u :: rest) ([u] :: points)

/-- The code points of a text are its units. -/
theorem CodePoints.flatten {us : List UInt16} {points : List (List UInt16)}
    (h : CodePoints us points) : points.flatten = us := by
  induction h with
  | nil => rfl
  | pair _ _ _ ih => simp [ih]
  | unit _ _ ih => simp [ih]

/-- A unit is written as itself. -/
theorem encodeCodePoint_unit (u : UInt16) : encodeCodePoint u.toNat = [u] := by
  have h := u.toNat_lt
  rw [encodeCodePoint, if_neg (by omega), if_pos (by omega), UInt16.ofNat_toNat]

/-- The code point of two surrogates, by their offsets. -/
theorem combineSurrogates_eq (hi lo : ℕ) :
    combineSurrogates (0xD800 + hi) (0xDC00 + lo) = 0x10000 + (hi * 2 ^ 10 + lo) := by
  unfold combineSurrogates
  rw [Nat.add_sub_cancel_left, Nat.add_sub_cancel_left, Nat.shiftLeft_eq, Nat.add_assoc]

/-- A pair of surrogates is written as itself. -/
theorem encodeCodePoint_pair {u v : UInt16} (hu : isHighSurrogate u.toNat)
    (hv : isLowSurrogate v.toNat) :
    encodeCodePoint (combineSurrogates u.toNat v.toNat) = [u, v] := by
  simp only [isHighSurrogate, isLowSurrogate, Bool.and_eq_true, decide_eq_true_eq] at hu hv
  obtain ⟨hi, hhi⟩ := Nat.exists_eq_add_of_le hu.1
  obtain ⟨lo, hlo⟩ := Nat.exists_eq_add_of_le hv.1
  have hhigh : (hi * 2 ^ 10 + lo) >>> 10 = hi := by
    rw [Nat.shiftRight_eq_div_pow]
    omega
  have hlow : (hi * 2 ^ 10 + lo) &&& 0x3FF = lo := by
    have hmod : (hi * 2 ^ 10 + lo) &&& 0x3FF = (hi * 2 ^ 10 + lo) % 2 ^ 10 :=
      Nat.and_two_pow_sub_one_eq_mod _ 10
    omega
  rw [hhi, hlo, combineSurrogates_eq, encodeCodePoint, if_neg (by omega), if_neg (by omega)]
  dsimp only
  rw [Nat.add_sub_cancel_left, hhigh, hlow, ← hhi, ← hlo, UInt16.ofNat_toNat, UInt16.ofNat_toNat]

/-- A String of one character has the units of its code point. -/
theorem units_fromChar (c : ℕ) : units (fromChar cfg c) = encodeCodePoint c := by
  rw [fromChar]
  split
  · next h =>
    rw [units_makeUtf8LeafFromBytes, encodeCodePoint, if_neg (by omega), if_pos (by omega)]
    rw [List.map_singleton, widen, UInt8.toNat_ofNat', Nat.mod_eq_of_lt (by omega)]
  · exact units_allocString cfg _

/-- The characters of a text are its code points. -/
theorem codePoints_decode (us : List UInt16) :
    CodePoints us ((decode us).map fun c => units (fromChar cfg c)) := by
  induction us using decode.induct with
  | case1 => exact .nil
  | case2 u =>
    simp only [decode, List.map_cons, List.map_nil, units_fromChar, encodeCodePoint_unit]
    exact .unit (by simp) .nil
  | case3 u v rest h ih =>
    rw [decode, if_pos h, List.map_cons, units_fromChar]
    rw [Bool.and_eq_true] at h
    rw [encodeCodePoint_pair h.1 h.2]
    exact .pair h.1 h.2 ih
  | case4 u v rest h ih =>
    rw [decode, if_neg h, List.map_cons, units_fromChar, encodeCodePoint_unit]
    refine .unit (fun w hw hpair => h ?_) ih
    obtain rfl : v = w := by simpa using hw
    simpa using hpair

/-! ## The cuts -/

/-- The parts between positions are the pieces of the text. -/
theorem map_parts {piece : ℕ → ℕ → Option Str} {β : Type} {text : List β} {f : β → UInt16}
    (hpiece : ∀ start end_,
      units (piece start end_) = ((text.drop start).take (end_ - start)).map f)
    (k start : ℕ) (ps : List ℕ) :
    (parts piece k text.length start ps).map units = (pieces k text start ps).map (List.map f) := by
  induction ps generalizing start with
  | nil =>
    rw [parts, pieces, List.map_singleton, List.map_singleton, hpiece, ← List.length_drop,
      List.take_length]
  | cons p ps ih => rw [parts, pieces, List.map_cons, List.map_cons, hpiece, ih]

/-- The positions found are where the text is cut. -/
theorem splitPositions_cuts {α : Type} [DecidableEq α] (keys : Keys α) {sep : List α}
    (str : List α) (hsep : sep ≠ []) :
    Cuts sep.length sep str 0 (splitPositions keys sep str hsep) := by
  rw [splitPositions]
  split
  · exact search_cuts keys hsep _ 0
  · exact scan_cuts hsep _ 0

/-- Splitting bytes. -/
theorem splitUtf8_splits {sep str : Utf8} (hsep : utf8Bytes sep ≠ []) :
    Splits ((utf8Bytes sep).map widen) ((utf8Bytes str).map widen)
      ((splitUtf8 cfg sep str hsep).map units) := by
  have hcuts := (splitPositions_cuts byteKeys (utf8Bytes str) hsep).splits
  rw [List.drop_zero] at hcuts
  rw [splitUtf8, ← str.length_bytes, map_parts (units_slice cfg str), ← sep.length_bytes]
  exact hcuts.map widen_injective

/-- Splitting units. -/
theorem splitUnits_splits {sep str : List UInt16} (hsep : sep ≠ []) :
    Splits sep str ((splitUnits cfg sep str hsep).map units) := by
  have hcuts := (splitPositions_cuts unitKeys str hsep).splits
  rw [List.drop_zero] at hcuts
  have hpiece : ∀ start end_, units (allocString cfg ((str.drop start).take (end_ - start)))
      = ((str.drop start).take (end_ - start)).map id := by
    intro start end_
    rw [units_allocString, List.map_id]
  rw [splitUnits, map_parts hpiece]
  simpa using hcuts

/-- Splitting by a separator that is not empty, in any form. -/
theorem splitBy_splits {sep str : Str} (hsep : sep.size ≠ 0) :
    Splits sep.units str.units ((splitBy cfg sep str hsep).map units) := by
  have hunits : Splits sep.units str.units ((splitUnits cfg (toStdU16String sep)
      (toStdU16String str) (Str.toStdU16String_ne_nil hsep)).map units) := by
    rw [← toStdU16String_eq sep, ← toStdU16String_eq str]
    exact splitUnits_splits cfg (Str.toStdU16String_ne_nil hsep)
  rw [splitBy.eq_def]
  split
  · split
    · exact splitUtf8_splits cfg _
    · exact hunits
  · exact hunits

/-! ## `join` -/

/-- Before every further piece stands a separator. -/
theorem interleave_rest {α : Type} (sep : List α) (xs : List (List α)) :
    interleave sep false xs = (xs.map (sep ++ ·)).flatten := by
  induction xs with
  | nil => rfl
  | cons x xs ih => simp [interleave, ih]

/-- Pieces with a separator between them. -/
theorem interleave_first {α : Type} (sep : List α) (xs : List (List α)) :
    interleave sep true xs = sep.intercalate xs := by
  induction xs with
  | nil => rfl
  | cons x xs ih =>
    rcases xs with _ | ⟨y, ys⟩
    · simp [interleave]
    · rw [List.intercalate_cons_cons, ← ih]
      simp [interleave]

/-- Without a separator the pieces follow one another. -/
theorem nil_intercalate {α : Type} (xs : List (List α)) : [].intercalate xs = xs.flatten := by
  rw [← interleave_first]
  rcases xs with _ | ⟨x, xs⟩
  · rfl
  · simp [interleave, interleave_rest]

/-- Mapping goes through to the pieces and the separator. -/
theorem map_interleave {α β : Type} (f : α → β) (sep : List α) (first : Bool)
    (xs : List (List α)) :
    (interleave sep first xs).map f = interleave (sep.map f) first (xs.map (List.map f)) := by
  induction xs generalizing first with
  | nil => rfl
  | cons x xs ih => cases first <;> simp [interleave, ih]

/-- The length of further pieces, each after a separator. -/
theorem length_interleave_rest {α : Type} (sep : List α) (xs : List (List α)) :
    (interleave sep false xs).length = (xs.map List.length).sum + sep.length * xs.length := by
  induction xs with
  | nil => rfl
  | cons x xs ih =>
    simp only [interleave, Bool.false_eq_true, if_false, List.length_append, ih, List.map_cons,
      List.sum_cons, List.length_cons, Nat.mul_add, Nat.mul_one]
    omega

/-- The length of pieces with a separator between them. -/
theorem length_interleave_first {α : Type} (sep : List α) (xs : List (List α)) :
    (interleave sep true xs).length = (xs.map List.length).sum + sep.length * (xs.length - 1) := by
  rcases xs with _ | ⟨x, xs⟩
  · rfl
  · rw [interleave]
    simp [length_interleave_rest, Nat.add_assoc]

/-- The bytes of a String are its units. -/
theorem bytesOf_units {s : Option Str} {bytes : List Ascii} (h : bytesOf s = some bytes) :
    bytes.map widen = units s := by
  rcases s with _ | s
  · cases h
    rfl
  · cases s <;> cases h
    rfl

/-- The bytes of a separator are its units. -/
theorem sepBytes_units {s : Option Str} {bytes : List Ascii} (h : sepBytes s = some bytes) :
    bytes.map widen = units s := by
  rw [sepBytes] at h
  split at h
  · next hsize =>
    cases h
    exact (units_eq_nil_iff.mpr hsize).symm
  · exact bytesOf_units h

/-- The bytes of several Strings are their units. -/
theorem mapM_bytesOf_units {list : List (Option Str)} {bytes : List (List Ascii)}
    (h : list.mapM bytesOf = some bytes) : bytes.map (List.map widen) = list.map units := by
  induction list generalizing bytes with
  | nil =>
    cases h
    rfl
  | cons s list ih =>
    rw [List.mapM_cons] at h
    simp only [Option.bind_eq_bind, Option.bind_eq_some_iff, Option.pure_def] at h
    obtain ⟨b, hb, bs, hbs, hcons⟩ := h
    cases hcons
    rw [List.map_cons, List.map_cons, bytesOf_units hb, ih hbs]

/-- The parts of the rope are the pieces and the separators between them. -/
theorem units_ropeParts (sep : Option Str) (first : Bool) (list : List (Option Str)) :
    ((ropeParts sep first list).map units).flatten
      = interleave (units sep) first (list.map units) := by
  have nonempty : ∀ s : Option Str,
      ((if 0 < sizeOf s then [s] else []).map units).flatten = units s := by
    intro s
    split
    · simp
    · next h => exact (units_eq_nil_iff.mpr (Nat.eq_zero_of_not_pos h)).symm
  induction list generalizing first with
  | nil => rfl
  | cons s list ih =>
    rw [ropeParts, List.map_append, List.flatten_append, List.map_append, List.flatten_append, ih,
      nonempty, List.map_cons, interleave]
    cases first with
    | true => rfl
    | false =>
      have hsep := nonempty sep
      simp only [Bool.false_eq_true, not_false_eq_true, true_and, if_false]
      rw [hsep]

theorem units_join (sep : Option Str) (list : List (Option Str)) :
    units (join cfg sep list) = (units sep).intercalate (list.map units) := by
  have hlength := length_interleave_first (units sep) (list.map units)
  have hsizes : (list.map units).map List.length = list.map sizeOf := by
    rw [List.map_map]
    exact List.map_congr_left fun s _ => length_units s
  rw [hsizes, length_units, List.length_map] at hlength
  rw [← interleave_first, join]
  dsimp only
  split
  · next h =>
    rw [List.length_eq_zero_iff] at h
    rw [h]
    rfl
  · split
    · next h =>
      rw [h, List.length_eq_zero_iff] at hlength
      rw [hlength]
      rfl
    · split
      · split
        · next bytes sepB hbytes hsep _ =>
          rw [units_asciiOut, map_interleave, sepBytes_units hsep, mapM_bytesOf_units hbytes]
        · rw [units_healAsciiResult, segmentsOf_eq]
          congr 1
          exact List.map_congr_left fun s _ => segmentsOf_eq s
      · rw [units_buildBalancedRope, units_ropeParts]

/-! ## The operations -/

/-- `indexes` gives every occurrence of a needle that has units, in order. -/
theorem indexes_spec (needle haystack : Option Str) :
    (indexes needle haystack).Pairwise (· < ·) ∧ ∀ i, i ∈ indexes needle haystack ↔
      units needle ≠ [] ∧ Occurs (units needle) (units haystack) i := by
  have nothing : units needle = [] →
      ([] : List ℕ).Pairwise (· < ·) ∧ ∀ i, i ∈ ([] : List ℕ) ↔
        units needle ≠ [] ∧ Occurs (units needle) (units haystack) i := by
    intro hn
    refine ⟨.nil, fun i => iff_of_false List.not_mem_nil ?_⟩
    rintro ⟨hne, _⟩
    exact hne hn
  rcases needle with _ | needle
  · rw [indexes.eq_def]
    exact nothing rfl
  rcases haystack with _ | haystack
  · refine ⟨.nil, fun i => iff_of_false List.not_mem_nil ?_⟩
    rintro ⟨hne, hocc⟩
    have hle := hocc.le hne
    have hpos := List.length_pos_iff.mpr hne
    simp only [units_none, List.length_nil] at hle
    omega
  · rw [indexes]
    simp only [toStdU16String_eq]
    split
    · next hn => exact nothing hn
    · next hn =>
      -- cuts at distance one are all the occurrences, whichever search finds them
      have every : ∀ ps, Cuts 1 needle.units haystack.units 0 ps →
          ps.Pairwise (· < ·) ∧ ∀ i, i ∈ ps ↔
            needle.units ≠ [] ∧ Occurs needle.units haystack.units i := by
        intro ps hps
        obtain ⟨sorted, mem⟩ := hps.all
        refine ⟨sorted, fun i => ?_⟩
        rw [mem]
        constructor
        · rintro ⟨_, hocc⟩
          exact ⟨hn, hocc⟩
        · rintro ⟨_, hocc⟩
          exact ⟨Nat.zero_le i, hocc⟩
      split
      · split
        · exact every _ (search_cuts unitKeys hn _ 0)
        · exact every _ (scan_cuts hn _ 0)
      · next hlt => exact every _ (.end hn (by rwa [Nat.zero_add]))

/-- By a separator that has units, the pieces are those between the leftmost occurrences. -/
theorem split_splits {sep : Option Str} (str : Option Str) (hsep : units sep ≠ []) :
    Splits (units sep) (units str) ((split cfg sep str).map units) := by
  have empty : Splits (units sep) [] [[]] := by
    refine .last fun j hocc => ?_
    have hle := hocc.le hsep
    have hpos := List.length_pos_iff.mpr hsep
    simp only [List.length_nil] at hle
    omega
  rcases str with _ | str
  · exact empty
  · rw [split.eq_def]
    dsimp only
    split
    · next h =>
      rw [units_some, List.length_eq_zero_iff.mp (str.length_units.trans h)]
      exact empty
    · rcases sep with _ | sep
      · exact absurd rfl hsep
      · dsimp only
        split
        · next h => exact absurd (List.length_eq_zero_iff.mp (sep.length_units.trans h)) hsep
        · next h => exact splitBy_splits cfg h

theorem split_empty_sep {sep str : Option Str} (hsep : units sep = []) (hstr : units str ≠ []) :
    CodePoints (units str) ((split cfg sep str).map units) := by
  rcases str with _ | str
  · exact absurd rfl hstr
  · have points : CodePoints str.units ((toList cfg (some str)).map units) := by
      rw [toList, toStdU16String_eq, List.map_map]
      exact codePoints_decode cfg str.units
    rw [split.eq_def]
    dsimp only
    split
    · next h => exact absurd (List.length_eq_zero_iff.mp (str.length_units.trans h)) hstr
    · rcases sep with _ | sep
      · exact points
      · dsimp only
        split
        · exact points
        · next h =>
          refine absurd ?_ h
          rw [← sep.length_units]
          exact List.length_eq_zero_iff.mpr hsep

theorem split_empty {str : Option Str} (sep : Option Str) (hstr : units str = []) :
    split cfg sep str = [none] := by
  rcases str with _ | str
  · rfl
  · rw [split.eq_def]
    dsimp only
    rw [if_pos]
    rw [← str.length_units]
    exact List.length_eq_zero_iff.mpr hstr

/-- A separator between what `split` gave is the String again. -/
theorem join_split (sep str : Option Str) :
    units (join cfg sep (split cfg sep str)) = units str := by
  rw [units_join]
  by_cases hsep : units sep = []
  · by_cases hstr : units str = []
    · rw [split_empty cfg sep hstr, hstr]
      simp
    · have hflat := (split_empty_sep cfg hsep hstr).flatten
      rw [hsep, nil_intercalate, hflat]
  · exact (split_splits cfg str hsep).join.2

/-- `indexes` gives the occurrences in order; `split` cuts at the leftmost ones that do not
    overlap, by the empty separator into code points, and the empty String not at all; and
    `join` undoes `split`. -/
theorem string_search :
    (∀ needle haystack : Option Str,
      (indexes needle haystack).Pairwise (· < ·) ∧ ∀ i, i ∈ indexes needle haystack ↔
        units needle ≠ [] ∧ Occurs (units needle) (units haystack) i) ∧
    (∀ sep str : Option Str, units sep ≠ [] →
      Splits (units sep) (units str) ((split cfg sep str).map units)) ∧
    (∀ sep str : Option Str, units sep = [] → units str ≠ [] →
      CodePoints (units str) ((split cfg sep str).map units)) ∧
    (∀ sep str : Option Str, units sep = [] → units str = [] →
      (split cfg sep str).map units = [[]]) ∧
    ∀ sep str : Option Str, units (join cfg sep (split cfg sep str)) = units str := by
  refine ⟨indexes_spec, fun sep str => split_splits cfg str, fun sep str => split_empty_sep cfg,
    fun sep str _ hstr => ?_, join_split cfg⟩
  rw [split_empty cfg sep hstr]
  rfl

/-- A small heap: what is longer than a unit is sliced, and what is longer than four a rope. -/
def smallHeap : HeapConfig where
  string_flatten_limit := 4
  string_tiny_slice_limit := 1
  utf8_strings_enabled := true
  largeObjectThreshold := 64

theorem string_search_smallHeap :
    Splits [44] [97, 44, 98] ((split smallHeap (some (.leaf [44])) (some (.large [97, 44, 98]))).map
      units) ∧
    CodePoints [97, 44] ((split smallHeap none (some (.leaf [97, 44]))).map units) ∧
    (split smallHeap (some (.leaf [])) none).map units = [[]] := by
  obtain ⟨-, cuts, points, empty, -⟩ := string_search smallHeap
  exact ⟨cuts (some (.leaf [44])) (some (.large [97, 44, 98])) (by simp [Str.units]),
    points none (some (.leaf [97, 44])) rfl (by simp [Str.units]),
    empty (some (.leaf [])) none rfl rfl⟩

/-- The empty String has no code points, and is not cut into none. -/
theorem split_empty_codePoints :
    ¬ CodePoints (units none) ((split smallHeap none none).map units) := by
  intro h
  cases h

end StringOps

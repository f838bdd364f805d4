import EcoCompiler.JsonProofs

/-! # What is printed is read back

    * `escape_standsFor`, `unescape_of_escape` — the escapes of a text stand for it;
    * `Built` — the values that are made with the encoders;
    * `says_encodeUgly`, `says_encodeHelp` — both layouts are JSON, and say what the value is;
    * `Built.reads_encodeUgly`, `Built.reads_encode` — what is printed can be read on either host;
    * `printed_read` — printing and reading are inverse. -/

namespace Json

open Primitives ParseSpace JsonGrammar
open Encode (nativeToList jsFoldr toList toCode escape escapeChar hexDigit encodeUgly uglyValues
  uglyEntries encodeHelp addValues addFields join)

/-! ## Escapes -/

section

variable {u v : UInt16} {c : ℕ} {s raw r t : Text}

/-- The text stands for the units. -/
structure StandsFor (e units : Text) : Prop where
  unescape : ∀ t, unescape (e ++ t) = (unescape t).map (units ++ ·)
  body : ∀ {s raw r}, Body s raw r → Body (e ++ s) (e ++ raw) r

theorem StandsFor.nil : StandsFor [] [] := ⟨fun t => by simp, fun h => h⟩

/-- Escapes one after the other stand for their units one after the other. -/
theorem StandsFor.append {e f units units' : Text} (he : StandsFor e units)
    (hf : StandsFor f units') : StandsFor (e ++ f) (units ++ units') where
  unescape := by
    intro t
    rw [List.append_assoc, he.unescape, hf.unescape, Option.map_map]
    simp [Function.comp_def]
  body := by
    intro s raw r h
    rw [List.append_assoc, List.append_assoc]
    exact he.body (hf.body h)

/-- A plain unit stands for itself. -/
theorem standsFor_plain (hu : IsPlain u) : StandsFor [u] [u] :=
  ⟨fun t => unescape_plain hu t, fun h => .plain hu h⟩

/-- A backslash and a letter stand for the unit that letter escapes. -/
theorem standsFor_escape (hv : escaped u = some v) : StandsFor [0x5C, u] [v] :=
  ⟨fun t => unescape_escape hv t, fun h => .escape (by rw [hv]; rfl) h⟩

/-- A digit below sixteen is written as the hex digit of its value. -/
theorem hexDigit_eq (hc : c < 16) : ∃ d, hexDigit c = [d] ∧ IsHex d ∧ hexValue d = c := by
  interval_cases c
  all_goals exact ⟨_, rfl, by decide, rfl⟩

theorem joined_ge (high low : ℕ) : 0x10000 ≤ joined high low := by
  have heq : joined high low = 0x10000 + (high - 0xD800) * 0x400 + (low - 0xDC00) := rfl
  omega

theorem isPlain_of_surrogate (hu : 0xD800 ≤ u.toNat) : IsPlain u := by
  refine ⟨by omega, ?_, ?_⟩ <;> rintro rfl <;> exact absurd hu (by decide)

/-- A character of one unit is escaped to what stands for it. -/
theorem escapeChar_unit (u : UInt16) : StandsFor (escapeChar [u]) [u] := by
  rw [escapeChar]
  split_ifs with h₁ h₂ h₃ h₄ h₅ h₆
  · obtain rfl := (List.cons.inj h₁).1
    exact standsFor_escape (u := 0x72) rfl
  · obtain rfl := (List.cons.inj h₂).1
    exact standsFor_escape (u := 0x6E) rfl
  · obtain rfl := (List.cons.inj h₃).1
    exact standsFor_escape (u := 0x22) rfl
  · obtain rfl := (List.cons.inj h₄).1
    exact standsFor_escape (u := 0x5C) rfl
  · obtain rfl := (List.cons.inj h₅).1
    exact standsFor_escape (u := 0x74) rfl
  · -- a control character by its two last digits
    rw [toCode] at h₆ ⊢
    obtain ⟨d₁, hd₁, hhex₁, hval₁⟩ := hexDigit_eq (c := u.toNat / 16) (by omega)
    obtain ⟨d₂, hd₂, hhex₂, hval₂⟩ := hexDigit_eq (c := u.toNat % 16) (by omega)
    have hzero : IsHex 0x30 := by decide
    have hunit : UInt16.ofNat (((hexValue 0x30 * 16 + hexValue 0x30) * 16 + hexValue d₁) * 16
        + hexValue d₂) = u := by
      have hz : hexValue 0x30 = 0 := rfl
      rw [hz, hval₁, hval₂]
      have hsum : ((0 * 16 + 0) * 16 + u.toNat / 16) * 16 + u.toNat % 16 = u.toNat := by omega
      rw [hsum, UInt16.ofNat_toNat]
    rw [hd₁, hd₂]
    refine ⟨fun t => ?_, fun h => .unicode hzero hzero hhex₁ hhex₂ h⟩
    rw [← hunit]
    exact unescape_unicode hzero hzero hhex₁ hhex₂ t
  · rw [toCode] at h₆
    have hplain : IsPlain u := by
      refine ⟨by omega, ?_, ?_⟩
      · rintro rfl
        exact h₃ rfl
      · rintro rfl
        exact h₄ rfl
    exact standsFor_plain hplain

/-- A character of two units is kept as it is. -/
theorem escapeChar_pair_eq (hu : IsHigh u.toNat) : escapeChar [u, v] = [u, v] := by
  have hge : 0x10000 ≤ toCode [u, v] := by
    rw [toCode, if_pos hu]
    exact joined_ge _ _
  rw [escapeChar, if_neg (by simp), if_neg (by simp), if_neg (by simp), if_neg (by simp),
    if_neg (by simp), if_neg (by omega)]

/-- A surrogate pair is escaped to what stands for it. -/
theorem escapeChar_pair (hu : IsHigh u.toNat) (hv : IsLow v.toNat) :
    StandsFor (escapeChar [u, v]) [u, v] := by
  rw [escapeChar_pair_eq hu]
  exact (standsFor_plain (isPlain_of_surrogate hu.1)).append
    (standsFor_plain (isPlain_of_surrogate (hv.1.trans' (by decide))))

/-! ### Characters of both hosts -/

theorem nativeToList_unit (hu : ¬ IsHigh u.toNat) (rest : Text) :
    nativeToList (u :: rest) = [u] :: nativeToList rest := by
  cases rest with
  | nil => rfl
  | cons v rest => rw [nativeToList, if_neg fun h => hu h.1]

theorem jsFoldr_unit (hu : ¬ IsLow u.toNat) (state : List Text) (rest : Text) :
    jsFoldr state (u :: rest) = jsFoldr ([u] :: state) rest := by
  cases rest with
  | nil => exact if_neg hu
  | cons v rest => rw [jsFoldr, if_neg hu]

/-- JavaScript goes over a text of pairs by its characters. -/
theorem jsFoldr_paired {str : Text} (h : Paired str) (state : List Text) (before : Text) :
    jsFoldr state (str.reverse ++ before) = jsFoldr (nativeToList str ++ state) before := by
  induction h generalizing before with
  | nil => rfl
  | unit hhigh hlow h ih =>
    rw [List.reverse_cons, List.append_assoc, ih, List.singleton_append, jsFoldr_unit hlow,
      nativeToList_unit hhigh, List.cons_append]
  | pair hhigh hlow h ih =>
    rw [List.reverse_cons, List.reverse_cons, List.append_assoc, List.append_assoc, ih,
      List.singleton_append, List.singleton_append, jsFoldr, if_pos hlow, nativeToList,
      if_pos ⟨hhigh, hlow⟩, List.cons_append]

/-- On a text its host reads, `String.toList` gives the characters. -/
theorem toList_eq {host : Host} {str : Text} (h : Reads host str) :
    toList host str = some (nativeToList str) := by
  cases host with
  | native => rfl
  | javascript =>
    have hfold := jsFoldr_paired (h rfl) [] []
    rwa [List.append_nil, List.append_nil, jsFoldr] at hfold

/-- The escapes of a text's characters stand for the text. -/
theorem nativeToList_standsFor (str : Text) :
    StandsFor ((nativeToList str).flatMap escapeChar) str := by
  induction str using Encode.nativeToList.induct with
  | case1 => exact StandsFor.nil
  | case2 u =>
    rw [nativeToList, List.flatMap_singleton]
    exact escapeChar_unit u
  | case3 u v rest hpair ih =>
    rw [nativeToList, if_pos hpair, List.flatMap_cons]
    exact (escapeChar_pair hpair.1 hpair.2).append ih
  | case4 u v rest hpair ih =>
    rw [nativeToList, if_neg hpair, List.flatMap_cons]
    exact (escapeChar_unit u).append ih

/-- A text that the host reads has escapes, and they stand for it. -/
theorem escape_standsFor {host : Host} {str : Text} (h : Reads host str) :
    ∃ e, escape host str = some e ∧ StandsFor e str := by
  refine ⟨(nativeToList str).flatMap escapeChar, ?_, nativeToList_standsFor str⟩
  rw [escape, toList_eq h, Option.map_some]

/-- The escapes of a text stand for it. -/
theorem StandsFor.unescape_eq {e units : Text} (h : StandsFor e units) :
    JsonGrammar.unescape e = some units := by
  have h := h.unescape []
  rwa [List.append_nil, JsonGrammar.unescape, Option.map_some, List.append_nil] at h

/-- Between marks, the escapes of a text are the rest of a string. -/
theorem body_escape {host : Host} {str e : Text} (hstr : Reads host str)
    (he : escape host str = some e) (r : Text) : Body (e ++ 0x22 :: r) e r := by
  obtain ⟨e', he', hstands⟩ := escape_standsFor hstr
  obtain rfl := Option.some.inj (he.symm.trans he')
  have h := hstands.body (.close r)
  rwa [List.append_nil] at h

end

/-- A key that needs no escaping. -/
structure IsPlainKey (host : Host) (key : Text) : Prop where
  reads : Reads host key
  escape_eq : escape host key = some key

/-! ## Values -/

/-- The values that are made with the encoders, of texts that the host reads, of keys that need no
    escaping and of numbers that the host holds, up to its limit. -/
inductive Built (host : Host) : Encode.Value → Prop where
  | string {str : Text} {value : Encode.Value} (hstr : Reads host str)
      (h : Encode.string host str = some value) : Built host value
  | chars {chrs : Text} {value : Encode.Value} (hchrs : Reads host chrs)
      (h : Encode.chars host chrs = some value) : Built host value
  | bool (boolean : Bool) : Built host (Encode.bool boolean)
  | null : Built host Encode.null
  | int {n : ℕ} (hn : host.Holds n) (hle : n ≤ host.limit) : Built host (Encode.int n)
  | list {a : Type} (encodeEntry : a → Encode.Value) (entries : List a)
      (h : ∀ entry ∈ entries, Built host (encodeEntry entry)) :
      Built host (Encode.list encodeEntry entries)
  | array {entries : List Encode.Value} (h : ∀ value ∈ entries, Built host value) :
      Built host (Encode.array entries)
  | object {entries : List (Text × Encode.Value)}
      (hkeys : ∀ entry ∈ entries, IsPlainKey host entry.1)
      (h : ∀ entry ∈ entries, Built host entry.2) : Built host (Encode.object entries)

section

variable {host : Host} {r : Text}

/-- The text of a value is JSON, and says what the value is. -/
def Says (host : Host) (l : Text) (value : Encode.Value) : Prop :=
  ∀ r, EndsValue r → ∃ t, JsonGrammar.Value Whole (l ++ r) t r ∧ treeShape host t = value

/-- A String in quotes is read back as it was. -/
theorem says_string {str e : Text} (hstr : Reads host str) (he : escape host str = some e) :
    Says host (ascii "\"" ++ e ++ ascii "\"") (.StringVal e) := by
  intro r _
  refine ⟨.string e, ?_, rfl⟩
  have heq : ascii "\"" ++ e ++ ascii "\"" ++ r = 0x22 :: (e ++ 0x22 :: r) := by
    rw [List.append_assoc, List.append_assoc]
    rfl
  rw [heq]
  exact .string (body_escape hstr he r)

theorem says_bool (boolean : Bool) :
    Says host (if boolean then ascii "true" else ascii "false") (.Boolean boolean) := by
  intro r _
  cases boolean with
  | true => exact ⟨.true, .true r, rfl⟩
  | false => exact ⟨.false, .false r, rfl⟩

theorem says_null : Says host (ascii "null") .Null := fun r _ => ⟨.null, .null r, rfl⟩

theorem digits_append {ds : Text} (hds : ∀ u ∈ ds, IsDigit u) (r : Text) :
    Digits (ds ++ r) ds r := by
  induction ds with
  | nil => exact .nil r
  | cons u ds ih =>
    obtain ⟨hu, hds⟩ := List.forall_mem_cons.mp hds
    exact .cons hu (ih hds)

/-- The digits of a number are an unsigned integer. -/
theorem whole_decimal (n : ℕ) (r : Text) : Whole (Host.decimal n ++ r) (Host.decimal n) r := by
  obtain ⟨u, ds, heq, hu, hds, hlead⟩ := Host.decimal_cases n
  rw [heq]
  rcases hlead with ⟨rfl, rfl⟩ | hlead
  · have hzero : u = 0x30 := by
      rw [Host.decimal_of_lt (by norm_num)] at heq
      exact (List.cons.inj heq).1.symm
    rw [hzero]
    exact .zero r
  · have hne : u ≠ 0x30 := by
      rintro rfl
      exact absurd hlead (by decide)
    exact .digits hu hne (digits_append hds r)

/-- An Int the host holds is read back as it was. -/
theorem says_int {n : ℕ} (hn : host.Holds n) (hle : n ≤ host.limit) :
    Says host (host.fromInt n) (.Integer n) := by
  intro r _
  rw [Host.fromInt_eq host hle]
  refine ⟨.number (Host.decimal n), .number (whole_decimal n r), ?_⟩
  rw [treeShape, Host.readOnto_decimal host hn hle]

/-! ### The compact layout -/

theorem join_cons_cons (sep l m : Text) (ls : List Text) :
    join sep (l :: m :: ls) = l ++ sep ++ join sep (m :: ls) := by
  simp [join, List.intercalate]

theorem join_singleton (sep l : Text) : join sep [l] = l := by
  simp [join, List.intercalate]

/-- Elements that say what they are, between brackets. -/
theorem says_uglyValues {value : Encode.Value} {values : List Encode.Value}
    (h : ∀ v ∈ value :: values, Says host (encodeUgly host v) v) (r : Text) :
    ∃ ts, Elements Whole
        (join (ascii ",") (uglyValues host (value :: values)) ++ 0x5D :: r) ts r ∧
      treeShapes host ts = value :: values := by
  induction values generalizing value with
  | nil =>
    obtain ⟨t, ht, hshape⟩ := h value (List.mem_cons_self ..) (0x5D :: r)
      (endsValue_cons (Or.inr (Or.inl rfl)))
    refine ⟨[t], ?_, by rw [treeShapes, treeShapes, hshape]⟩
    rw [uglyValues, uglyValues, join_singleton]
    exact .last (.nil _) ht (.nil _)
  | cons value' values ih =>
    obtain ⟨hvalue, hrest⟩ := List.forall_mem_cons.mp h
    obtain ⟨ts, hts, hshapes⟩ := ih hrest
    obtain ⟨t, ht, hshape⟩ := hvalue
      (0x2C :: (join (ascii ",") (uglyValues host (value' :: values)) ++ 0x5D :: r))
      (endsValue_cons (Or.inl rfl))
    refine ⟨t :: ts, ?_, by rw [treeShapes, hshape, hshapes]⟩
    rw [uglyValues, uglyValues, join_cons_cons, List.append_assoc, List.append_assoc]
    exact .cons (.nil _) ht (.nil _) hts

/-- The entries of an object without blanks are read back in order. -/
theorem says_uglyEntries {entry : Text × Encode.Value} {entries : List (Text × Encode.Value)}
    (hkeys : ∀ e ∈ entry :: entries, IsPlainKey host e.1)
    (h : ∀ e ∈ entry :: entries, Says host (encodeUgly host e.2) e.2) (r : Text) :
    ∃ ms, Members Whole
        (join (ascii ",") (uglyEntries host (entry :: entries)) ++ 0x7D :: r) ms r ∧
      memberShapes host ms = entry :: entries := by
  have hfield : ∀ (e : Text × Encode.Value) (s : Text),
      ascii "\"" ++ e.1 ++ ascii "\":" ++ encodeUgly host e.2 ++ s
        = 0x22 :: (e.1 ++ 0x22 :: 0x3A :: (encodeUgly host e.2 ++ s)) := by
    intro e s
    simp only [List.append_assoc]
    rfl
  induction entries generalizing entry with
  | nil =>
    have hesc := hkeys entry (List.mem_cons_self ..)
    obtain ⟨t, ht, hshape⟩ := h entry (List.mem_cons_self ..) (0x7D :: r)
      (endsValue_cons (Or.inr (Or.inr rfl)))
    refine ⟨[(entry.1, t)], ?_, by rw [memberShapes, memberShapes, hshape]⟩
    rw [uglyEntries, uglyEntries, join_singleton, hfield entry]
    exact .last (.nil _) (body_escape hesc.reads hesc.escape_eq _) (.nil _) (.nil _) ht (.nil _)
  | cons entry' entries ih =>
    obtain ⟨hesc, hkeys⟩ := List.forall_mem_cons.mp hkeys
    obtain ⟨hvalue, hrest⟩ := List.forall_mem_cons.mp h
    obtain ⟨ms, hms, hshapes⟩ := ih hkeys hrest
    obtain ⟨t, ht, hshape⟩ := hvalue
      (0x2C :: (join (ascii ",") (uglyEntries host (entry' :: entries)) ++ 0x7D :: r))
      (endsValue_cons (Or.inl rfl))
    refine ⟨(entry.1, t) :: ms, ?_, by rw [memberShapes, hshape, hshapes]⟩
    rw [uglyEntries, uglyEntries, join_cons_cons, List.append_assoc, List.append_assoc,
      hfield entry]
    exact .cons (.nil _) (body_escape hesc.reads hesc.escape_eq _) (.nil _) (.nil _) ht (.nil _) hms

/-- An array without blanks is read back as its values. -/
theorem says_uglyArray {values : List Encode.Value}
    (h : ∀ v ∈ values, Says host (encodeUgly host v) v) :
    Says host (encodeUgly host (.Array values)) (.Array values) := by
  intro r _
  cases values with
  | nil => exact ⟨.array [], .emptyArray (.nil _), rfl⟩
  | cons value values =>
    obtain ⟨ts, hts, hshapes⟩ := says_uglyValues h r
    refine ⟨.array ts, ?_, by rw [treeShape, hshapes]⟩
    rw [encodeUgly, List.append_assoc, List.append_assoc]
    · exact .array hts
    · simp

/-- An object without blanks is read back as its entries. -/
theorem says_uglyObject {entries : List (Text × Encode.Value)}
    (hkeys : ∀ e ∈ entries, IsPlainKey host e.1)
    (h : ∀ e ∈ entries, Says host (encodeUgly host e.2) e.2) :
    Says host (encodeUgly host (.Object entries)) (.Object entries) := by
  intro r _
  cases entries with
  | nil => exact ⟨.object [], .emptyObject (.nil _), rfl⟩
  | cons entry entries =>
    obtain ⟨ms, hms, hshapes⟩ := says_uglyEntries hkeys h r
    refine ⟨.object ms, ?_, by rw [treeShape, hshapes]⟩
    rw [encodeUgly, List.append_assoc, List.append_assoc]
    · exact .object hms
    · simp

/-- The compact text of a value says what the value is. -/
theorem says_encodeUgly {value : Encode.Value} (h : Built host value) :
    Says host (encodeUgly host value) value := by
  induction h with
  | string hstr h =>
    obtain ⟨e, he, rfl⟩ := Option.map_eq_some_iff.mp h
    exact says_string hstr he
  | chars hchrs h =>
    obtain ⟨e, he, rfl⟩ := Option.map_eq_some_iff.mp h
    exact says_string hchrs he
  | bool boolean => exact says_bool boolean
  | null => exact says_null
  | int hn hle => exact says_int hn hle
  | list encodeEntry entries h ih =>
    refine says_uglyArray fun v hv => ?_
    obtain ⟨entry, hentry, rfl⟩ := List.mem_map.mp hv
    exact ih entry hentry
  | array h ih => exact says_uglyArray ih
  | object hkeys h ih => exact says_uglyObject hkeys ih

/-! ### The pretty layout -/

/-- An indentation. -/
def Blank (indent : Text) : Prop := ∀ u ∈ indent, u = 0x20

/-- Blanks before a text are passed over. -/
theorem ws_append {w : Text} (hw : ∀ u ∈ w, IsWs u) (s : Text) : Ws (w ++ s) s := by
  induction w with
  | nil => exact .nil s
  | cons u w ih =>
    obtain ⟨hu, hw⟩ := List.forall_mem_cons.mp hw
    exact .cons hu (ih hw)

/-- A line break with an indentation is whitespace. -/
theorem ws_newline {indent : Text} (hindent : Blank indent) (s : Text) :
    Ws (0x0A :: (indent ++ s)) s :=
  .cons (by decide) (ws_append (fun u hu => Or.inl (hindent u hu)) s)

/-- A deeper indentation is blank too. -/
theorem blank_deeper {indent : Text} (hindent : Blank indent) : Blank (indent ++ ascii "    ") := by
  intro u hu
  rcases List.mem_append.mp hu with hu | hu
  · exact hindent u hu
  · have hmem : u ∈ ([0x20, 0x20, 0x20, 0x20] : Text) := hu
    simpa using hmem

theorem endsValue_newline (s : Text) : EndsValue (0x0A :: s) := by
  intro u hu
  obtain rfl := Option.some.inj hu
  exact Or.inl (by decide)

/-- The values of an array, each on a line of its own, are read back in order. -/
theorem says_addValues {indent deeper : Text} (hindent : Blank indent) (hdeeper : Blank deeper)
    {first : Encode.Value} {rest : List Encode.Value}
    (h : ∀ v ∈ first :: rest, Says host (encodeHelp host deeper v) v) (r : Text) :
    ∃ ts, Elements Whole (0x0A :: (deeper ++ (encodeHelp host deeper first
        ++ (addValues host deeper (ascii "\n" ++ indent ++ ascii "]") rest ++ r)))) ts r ∧
      treeShapes host ts = first :: rest := by
  induction rest generalizing first with
  | nil =>
    have hclose : addValues host deeper (ascii "\n" ++ indent ++ ascii "]") [] ++ r
        = 0x0A :: (indent ++ 0x5D :: r) := by
      rw [addValues, List.append_assoc, List.append_assoc]
      rfl
    rw [hclose]
    obtain ⟨t, ht, hshape⟩ := h first (List.mem_cons_self ..) _
      (endsValue_newline (indent ++ 0x5D :: r))
    exact ⟨[t], .last (ws_newline hdeeper _) ht (ws_newline hindent _),
      by rw [treeShapes, treeShapes, hshape]⟩
  | cons field rest ih =>
    obtain ⟨hfirst, hrest⟩ := List.forall_mem_cons.mp h
    have hcomma : addValues host deeper (ascii "\n" ++ indent ++ ascii "]") (field :: rest) ++ r
        = 0x2C :: 0x0A :: (deeper ++ (encodeHelp host deeper field
          ++ (addValues host deeper (ascii "\n" ++ indent ++ ascii "]") rest ++ r))) := by
      rw [addValues]
      simp only [List.append_assoc]
      rfl
    rw [hcomma]
    obtain ⟨ts, hts, hshapes⟩ := ih hrest
    obtain ⟨t, ht, hshape⟩ := hfirst _ (endsValue_cons (s := 0x0A :: _) (Or.inl rfl))
    exact ⟨t :: ts, .cons (ws_newline hdeeper _) ht (.nil _) hts,
      by rw [treeShapes, hshape, hshapes]⟩

/-- The fields of an object, each on a line of its own, are read back in order. -/
theorem says_addFields {indent deeper : Text} (hindent : Blank indent) (hdeeper : Blank deeper)
    {key : Text} {value : Encode.Value} {rest : List (Text × Encode.Value)}
    (hkeys : ∀ e ∈ (key, value) :: rest, IsPlainKey host e.1)
    (h : ∀ e ∈ (key, value) :: rest, Says host (encodeHelp host deeper e.2) e.2) (r : Text) :
    ∃ ms, Members Whole (0x0A :: (deeper ++ (0x22 :: (key ++ 0x22 :: 0x3A :: 0x20 ::
        (encodeHelp host deeper value
          ++ (addFields host deeper (ascii "\n" ++ indent ++ ascii "\x7d") rest ++ r)))))) ms r ∧
      memberShapes host ms = (key, value) :: rest := by
  -- the member here and those after it; the last one is followed by the closing brace
  induction rest generalizing key value with
  | nil =>
    have hclose : addFields host deeper (ascii "\n" ++ indent ++ ascii "\x7d") [] ++ r
        = 0x0A :: (indent ++ 0x7D :: r) := by
      rw [addFields, List.append_assoc, List.append_assoc]
      rfl
    rw [hclose]
    have hesc := hkeys _ (List.mem_cons_self ..)
    obtain ⟨t, ht, hshape⟩ := h _ (List.mem_cons_self ..) _
      (endsValue_newline (indent ++ 0x7D :: r))
    exact ⟨[(key, t)],
      .last (ws_newline hdeeper _) (body_escape hesc.reads hesc.escape_eq _) (.nil _)
      (.cons (by decide) (.nil _)) ht (ws_newline hindent _),
      by rw [memberShapes, memberShapes, hshape]⟩
  | cons entry rest ih =>
    obtain ⟨key', value'⟩ := entry
    obtain ⟨hesc, hkeys⟩ := List.forall_mem_cons.mp hkeys
    obtain ⟨hfirst, hrest⟩ := List.forall_mem_cons.mp h
    have hcomma : addFields host deeper (ascii "\n" ++ indent ++ ascii "\x7d")
      ((key', value') :: rest)
        ++ r = 0x2C :: 0x0A :: (deeper ++ (0x22 :: (key' ++ 0x22 :: 0x3A :: 0x20 ::
          (encodeHelp host deeper value'
            ++ (addFields host deeper (ascii "\n" ++ indent ++ ascii "\x7d") rest ++ r))))) := by
      rw [addFields]
      simp only [List.append_assoc]
      rfl
    rw [hcomma]
    obtain ⟨ms, hms, hshapes⟩ := ih hkeys hrest
    obtain ⟨t, ht, hshape⟩ := hfirst _ (endsValue_cons (s := 0x0A :: _) (Or.inl rfl))
    exact ⟨(key, t) :: ms,
      .cons (ws_newline hdeeper _) (body_escape hesc.reads hesc.escape_eq _) (.nil _)
      (.cons (by decide) (.nil _)) ht (.nil _) hms, by rw [memberShapes, hshape, hshapes]⟩

/-- An indented array is read back as its values. -/
theorem says_prettyArray {indent : Text} (hindent : Blank indent) {values : List Encode.Value}
    (h : ∀ v ∈ values, ∀ indent, Blank indent → Says host (encodeHelp host indent v) v) :
    Says host (encodeHelp host indent (.Array values)) (.Array values) := by
  intro r _
  cases values with
  | nil => exact ⟨.array [], .emptyArray (.nil _), rfl⟩
  | cons first rest =>
    have hdeeper := blank_deeper hindent
    obtain ⟨ts, hts, hshapes⟩ := says_addValues hindent hdeeper (fun v hv => h v hv _ hdeeper) r
    refine ⟨.array ts, ?_, by rw [treeShape, hshapes]⟩
    have hopen : encodeHelp host indent (.Array (first :: rest)) ++ r = 0x5B :: 0x0A ::
        ((indent ++ ascii "    ") ++ (encodeHelp host (indent ++ ascii "    ") first
          ++ (addValues host (indent ++ ascii "    ") (ascii "\n" ++ indent ++ ascii "]") rest
            ++ r))) := by
      rw [encodeHelp]
      simp only [List.append_assoc]
      rfl
    rw [hopen]
    exact .array hts

/-- An indented object is read back as its entries. -/
theorem says_prettyObject {indent : Text} (hindent : Blank indent)
    {entries : List (Text × Encode.Value)} (hkeys : ∀ e ∈ entries, IsPlainKey host e.1)
    (h : ∀ e ∈ entries, ∀ indent, Blank indent → Says host (encodeHelp host indent e.2) e.2) :
    Says host (encodeHelp host indent (.Object entries)) (.Object entries) := by
  intro r _
  cases entries with
  | nil => exact ⟨.object [], .emptyObject (.nil _), rfl⟩
  | cons entry rest =>
    obtain ⟨key, value⟩ := entry
    have hdeeper := blank_deeper hindent
    obtain ⟨ms, hms, hshapes⟩ :=
      says_addFields hindent hdeeper hkeys (fun e he => h e he _ hdeeper) r
    refine ⟨.object ms, ?_, by rw [treeShape, hshapes]⟩
    have hopen : encodeHelp host indent (.Object ((key, value) :: rest)) ++ r = 0x7B :: 0x0A ::
        ((indent ++ ascii "    ") ++ (0x22 :: (key ++ 0x22 :: 0x3A :: 0x20 ::
          (encodeHelp host (indent ++ ascii "    ") value
            ++ (addFields host (indent ++ ascii "    ") (ascii "\n" ++ indent ++ ascii "\x7d") rest
              ++ r))))) := by
      rw [encodeHelp]
      simp only [List.append_assoc]
      rfl
    rw [hopen]
    exact .object hms

/-- The pretty text of a value says what the value is. -/
theorem says_encodeHelp {value : Encode.Value} (h : Built host value) {indent : Text}
    (hindent : Blank indent) : Says host (encodeHelp host indent value) value := by
  induction h generalizing indent with
  | string hstr h =>
    obtain ⟨e, he, rfl⟩ := Option.map_eq_some_iff.mp h
    exact says_string hstr he
  | chars hchrs h =>
    obtain ⟨e, he, rfl⟩ := Option.map_eq_some_iff.mp h
    exact says_string hchrs he
  | bool boolean => exact says_bool boolean
  | null => exact says_null
  | int hn hle => exact says_int hn hle
  | list encodeEntry entries h ih =>
    refine says_prettyArray hindent fun v hv indent hindent => ?_
    obtain ⟨entry, hentry, rfl⟩ := List.mem_map.mp hv
    exact ih entry hentry hindent
  | array h ih => exact says_prettyArray hindent fun v hv indent hindent => ih v hv hindent
  | object hkeys h ih =>
    exact says_prettyObject hindent hkeys fun e he indent hindent => ih e he hindent

end

/-! ## What is printed can be read

    The marks of JSON are ASCII, and the escapes of a text of pairs are texts of pairs. -/

section

variable {host : Host} {a b : Text}

theorem Paired.append (ha : Paired a) (hb : Paired b) : Paired (a ++ b) := by
  induction ha with
  | nil => exact hb
  | unit hhigh hlow h ih => exact .unit hhigh hlow ih
  | pair hhigh hlow h ih => exact .pair hhigh hlow ih

/-- A text below the surrogates has no unit out of its pair. -/
theorem paired_of_lt {t : Text} (h : ∀ u ∈ t, u.toNat < 0xD800) : Paired t := by
  induction t with
  | nil => exact .nil
  | cons u t ih =>
    obtain ⟨hu, ht⟩ := List.forall_mem_cons.mp h
    exact .unit (fun hhigh => absurd hhigh.1 (by omega))
      (fun hlow => absurd hlow.1 (by omega)) (ih ht)

/-- A text made of two that the host reads is one it reads. -/
theorem Reads.append (ha : Reads host a) (hb : Reads host b) : Reads host (a ++ b) :=
  fun hjs => (ha hjs).append (hb hjs)

/-- Both hosts read a text below the surrogates. -/
theorem reads_of_lt {t : Text} (h : ∀ u ∈ t, u.toNat < 0xD800) : Reads host t :=
  fun _ => paired_of_lt h

theorem paired_ascii {s : String} (h : s.toList.all (fun c => c.toNat < 0xD800)) :
    Paired (ascii s) := by
  refine paired_of_lt fun u hu => ?_
  obtain ⟨c, hc, rfl⟩ := List.mem_map.mp hu
  have hlt := of_decide_eq_true (List.all_eq_true.mp h c hc)
  rw [UInt16.toNat_ofNat_of_lt' (hlt.trans (by decide))]
  exact hlt

theorem reads_ascii {s : String} (h : s.toList.all (fun c => c.toNat < 0xD800)) :
    Reads host (ascii s) := fun _ => paired_ascii h

theorem escapeChar_unit_paired {u : UInt16} (hhigh : ¬ IsHigh u.toNat) (hlow : ¬ IsLow u.toNat) :
    Paired (escapeChar [u]) := by
  have hdigit : ∀ {c}, c < 16 → Paired (hexDigit c) := by
    intro c hc
    obtain ⟨d, hd, hhex, -⟩ := hexDigit_eq hc
    rw [hd]
    refine paired_of_lt fun u hu => ?_
    obtain rfl := List.mem_singleton.mp hu
    rcases hhex with ⟨-, hle⟩ | ⟨-, hle⟩ | ⟨-, hle⟩
    all_goals exact hle.trans_lt (by norm_num)
  rw [escapeChar]
  split_ifs with h₁ h₂ h₃ h₄ h₅ h₆
  · exact paired_ascii rfl
  · exact paired_ascii rfl
  · exact paired_ascii rfl
  · exact paired_ascii rfl
  · exact paired_ascii rfl
  · rw [toCode] at h₆ ⊢
    exact ((paired_ascii rfl).append (hdigit (by omega))).append (hdigit (by omega))
  · exact .unit hhigh hlow .nil

/-- Escaping keeps every surrogate in its pair. -/
theorem Paired.escapes {str : Text} (h : Paired str) :
    Paired ((nativeToList str).flatMap escapeChar) := by
  induction h with
  | nil => exact .nil
  | unit hhigh hlow h ih =>
    rw [nativeToList_unit hhigh, List.flatMap_cons]
    exact (escapeChar_unit_paired hhigh hlow).append ih
  | pair hhigh hlow h ih =>
    rw [nativeToList, if_pos ⟨hhigh, hlow⟩, List.flatMap_cons, escapeChar_pair_eq hhigh]
    exact .pair hhigh hlow ih

/-- What escaping a String gives is a text the host reads. -/
theorem reads_escape {str e : Text} (hstr : Reads host str) (he : escape host str = some e) :
    Reads host e := by
  rw [escape, toList_eq hstr, Option.map_some] at he
  rw [← Option.some.inj he]
  exact fun hjs => (hstr hjs).escapes

theorem reads_mark {e : Text} (h : Reads host e) : Reads host (ascii "\"" ++ e ++ ascii "\"") :=
  ((reads_ascii rfl).append h).append (reads_ascii rfl)

theorem reads_bool (boolean : Bool) :
    Reads host (if boolean then ascii "true" else ascii "false") := by
  cases boolean with
  | true => exact reads_ascii rfl
  | false => exact reads_ascii rfl

/-- What an Int is written as is a text the host reads. -/
theorem reads_int {n : ℕ} (hle : n ≤ host.limit) : Reads host (host.fromInt n) := by
  rw [Host.fromInt_eq host hle]
  refine reads_of_lt fun u hu => ?_
  obtain ⟨d, ds, heq, hd, hds, -⟩ := Host.decimal_cases n
  have hdigit : IsDigit u := by
    rw [heq] at hu
    rcases List.mem_cons.mp hu with rfl | hu
    · exact hd
    · exact hds u hu
  exact hdigit.2.trans_lt (by norm_num)

/-- Texts joined by a separator are read by the host when all of them are. -/
theorem reads_join {sep : Text} (hsep : Reads host sep) {texts : List Text}
    (h : ∀ text ∈ texts, Reads host text) : Reads host (join sep texts) := by
  induction texts with
  | nil => exact fun _ => .nil
  | cons text texts ih =>
    obtain ⟨htext, htexts⟩ := List.forall_mem_cons.mp h
    cases texts with
    | nil => rwa [join_singleton]
    | cons text' texts =>
      rw [join_cons_cons]
      exact (htext.append hsep).append (ih htexts)

theorem reads_uglyValues {values : List Encode.Value}
    (h : ∀ v ∈ values, Reads host (encodeUgly host v)) :
    ∀ text ∈ uglyValues host values, Reads host text := by
  induction values with
  | nil => simp [uglyValues]
  | cons value values ih =>
    obtain ⟨hvalue, hvalues⟩ := List.forall_mem_cons.mp h
    rw [uglyValues]
    exact List.forall_mem_cons.mpr ⟨hvalue, ih hvalues⟩

theorem reads_uglyEntries {entries : List (Text × Encode.Value)}
    (hkeys : ∀ e ∈ entries, IsPlainKey host e.1)
    (h : ∀ e ∈ entries, Reads host (encodeUgly host e.2)) :
    ∀ text ∈ uglyEntries host entries, Reads host text := by
  induction entries with
  | nil => simp [uglyEntries]
  | cons entry entries ih =>
    obtain ⟨hkey, hkeys⟩ := List.forall_mem_cons.mp hkeys
    obtain ⟨hentry, hentries⟩ := List.forall_mem_cons.mp h
    rw [uglyEntries]
    refine List.forall_mem_cons.mpr ⟨?_, ih hkeys hentries⟩
    exact (((reads_ascii rfl).append hkey.reads).append (reads_ascii rfl)).append
      hentry

/-- An array without blanks is a text the host reads. -/
theorem reads_uglyArray {values : List Encode.Value}
    (h : ∀ v ∈ values, Reads host (encodeUgly host v)) :
    Reads host (encodeUgly host (.Array values)) := by
  cases values with
  | nil =>
    rw [encodeUgly]
    exact reads_ascii rfl
  | cons value values =>
    rw [encodeUgly]
    · exact ((reads_ascii rfl).append
        (reads_join (reads_ascii rfl) (reads_uglyValues h))).append (reads_ascii rfl)
    · simp

/-- The compact text of a value can be read. -/
theorem Built.reads_encodeUgly {value : Encode.Value} (h : Built host value) :
    Reads host (encodeUgly host value) := by
  induction h with
  | string hstr h =>
    obtain ⟨e, he, rfl⟩ := Option.map_eq_some_iff.mp h
    exact reads_mark (reads_escape hstr he)
  | chars hchrs h =>
    obtain ⟨e, he, rfl⟩ := Option.map_eq_some_iff.mp h
    exact reads_mark (reads_escape hchrs he)
  | bool boolean => exact reads_bool boolean
  | null =>
    rw [Encode.null, encodeUgly]
    exact reads_ascii rfl
  | int hn hle => exact reads_int hle
  | list encodeEntry entries h ih =>
    refine reads_uglyArray fun v hv => ?_
    obtain ⟨entry, hentry, rfl⟩ := List.mem_map.mp hv
    exact ih entry hentry
  | array h ih => exact reads_uglyArray ih
  | @object entries hkeys h ih =>
    cases entries with
    | nil =>
      rw [Encode.object, encodeUgly]
      exact reads_ascii rfl
    | cons entry entries =>
      rw [Encode.object, encodeUgly]
      · exact ((reads_ascii rfl).append (reads_join (reads_ascii rfl)
          (reads_uglyEntries hkeys ih))).append (reads_ascii rfl)
      · simp

theorem Blank.reads {indent : Text} (h : Blank indent) : Reads host indent :=
  reads_of_lt fun u hu => by
    rw [h u hu]
    decide

/-- The lines of an array are a text the host reads. -/
theorem reads_addValues {indent closer : Text} (hindent : Blank indent)
    (hcloser : Reads host closer) {values : List Encode.Value}
    (h : ∀ v ∈ values, Reads host (encodeHelp host indent v)) :
    Reads host (addValues host indent closer values) := by
  induction values with
  | nil => exact hcloser
  | cons value values ih =>
    obtain ⟨hvalue, hvalues⟩ := List.forall_mem_cons.mp h
    rw [addValues]
    exact (((reads_ascii rfl).append hindent.reads).append hvalue).append (ih hvalues)

/-- The lines of an object are a text the host reads. -/
theorem reads_addFields {indent closer : Text} (hindent : Blank indent)
    (hcloser : Reads host closer) {entries : List (Text × Encode.Value)}
    (hkeys : ∀ e ∈ entries, IsPlainKey host e.1)
    (h : ∀ e ∈ entries, Reads host (encodeHelp host indent e.2)) :
    Reads host (addFields host indent closer entries) := by
  induction entries with
  | nil => exact hcloser
  | cons entry entries ih =>
    obtain ⟨hkey, hkeys⟩ := List.forall_mem_cons.mp hkeys
    obtain ⟨hentry, hentries⟩ := List.forall_mem_cons.mp h
    rw [addFields]
    exact (((reads_ascii rfl).append hindent.reads).append
      ((((reads_ascii rfl).append hkey.reads).append (reads_ascii rfl)).append hentry)).append
      (ih hkeys hentries)

theorem reads_closer {indent mark : Text} (hindent : Blank indent) (hmark : Reads host mark) :
    Reads host (ascii "\n" ++ indent ++ mark) :=
  ((reads_ascii rfl).append hindent.reads).append hmark

theorem reads_prettyArray {indent : Text} (hindent : Blank indent) {values : List Encode.Value}
    (h : ∀ v ∈ values, ∀ indent, Blank indent → Reads host (encodeHelp host indent v)) :
    Reads host (encodeHelp host indent (.Array values)) := by
  cases values with
  | nil =>
    rw [encodeHelp]
    exact reads_ascii rfl
  | cons first rest =>
    have hdeeper := blank_deeper hindent
    obtain ⟨hfirst, hrest⟩ := List.forall_mem_cons.mp h
    rw [encodeHelp]
    exact (((reads_ascii rfl).append hdeeper.reads).append (hfirst _ hdeeper)).append
      (reads_addValues hdeeper (reads_closer hindent (reads_ascii rfl))
        fun v hv => hrest v hv _ hdeeper)

theorem reads_prettyObject {indent : Text} (hindent : Blank indent)
    {entries : List (Text × Encode.Value)} (hkeys : ∀ e ∈ entries, IsPlainKey host e.1)
    (h : ∀ e ∈ entries, ∀ indent, Blank indent → Reads host (encodeHelp host indent e.2)) :
    Reads host (encodeHelp host indent (.Object entries)) := by
  cases entries with
  | nil =>
    rw [encodeHelp]
    exact reads_ascii rfl
  | cons entry rest =>
    have hdeeper := blank_deeper hindent
    obtain ⟨hkey, hkeys⟩ := List.forall_mem_cons.mp hkeys
    obtain ⟨hfirst, hrest⟩ := List.forall_mem_cons.mp h
    rw [encodeHelp]
    exact (((reads_ascii rfl).append hdeeper.reads).append
      ((((reads_ascii rfl).append hkey.reads).append (reads_ascii rfl)).append
        (hfirst _ hdeeper))).append
      (reads_addFields hdeeper (reads_closer hindent (reads_ascii rfl)) hkeys
        fun e he => hrest e he _ hdeeper)

/-- What the printer gives for a built value is a text the host reads. -/
theorem Built.reads_encodeHelp {value : Encode.Value} (h : Built host value) {indent : Text}
    (hindent : Blank indent) : Reads host (encodeHelp host indent value) := by
  induction h generalizing indent with
  | string hstr h =>
    obtain ⟨e, he, rfl⟩ := Option.map_eq_some_iff.mp h
    exact reads_mark (reads_escape hstr he)
  | chars hchrs h =>
    obtain ⟨e, he, rfl⟩ := Option.map_eq_some_iff.mp h
    exact reads_mark (reads_escape hchrs he)
  | bool boolean => exact reads_bool boolean
  | null =>
    rw [Encode.null, encodeHelp]
    exact reads_ascii rfl
  | int hn hle => exact reads_int hle
  | list encodeEntry entries h ih =>
    refine reads_prettyArray hindent fun v hv indent hindent => ?_
    obtain ⟨entry, hentry, rfl⟩ := List.mem_map.mp hv
    exact ih entry hentry hindent
  | array h ih => exact reads_prettyArray hindent fun v hv indent hindent => ih v hv hindent
  | object hkeys h ih =>
    exact reads_prettyObject hindent hkeys fun e he indent hindent => ih e he hindent

/-- The pretty text of a value can be read. -/
theorem Built.reads_encode {value : Encode.Value} (h : Built host value) :
    Reads host (Encode.encode host value) :=
  h.reads_encodeHelp (by simp [Blank])

end

/-! ## Printing and reading -/

section

variable {host : Host} {isAlpha : ℕ → Bool}

/-- A value read back from a text is read back from the file that holds it. -/
theorem Says.file {l : Text} {value : Encode.Value} (h : Says host l value) :
    ∃ t, File Whole l t ∧ treeShape host t = value := by
  obtain ⟨t, ht, hshape⟩ := h [] (by simp [EndsValue])
  rw [List.append_nil] at ht
  exact ⟨t, ⟨l, [], .nil l, ht, .nil []⟩, hshape⟩

/-- A text that says what a value is is read as that value. -/
theorem Says.parse {l : Text} {value : Encode.Value} (h : Says host l value) :
    ∃ ast, parse host isAlpha l = .ok ast ∧ ast.value.shape = value := by
  obtain ⟨t, ht, rfl⟩ := h.file
  exact parse_of_file host isAlpha ht

/-- The unsigned integers are the numbers of digits alone. -/
theorem file_whole {src : Text} {t : Tree} :
    File Whole src t ↔ File Number src t ∧ t.All IsUnsigned := by
  have hnum : Whole = fun s raw r => Number s raw r ∧ IsUnsigned raw := by
    funext s raw r
    exact propext number_isUnsigned.symm
  rw [hnum]
  constructor
  · rintro ⟨s, r, before, h, after⟩
    obtain ⟨h, hall⟩ := value_all.mp h
    exact ⟨⟨s, r, before, h, after⟩, hall⟩
  · rintro ⟨⟨s, r, before, h, after⟩, hall⟩
    exact ⟨s, r, before, value_all.mpr ⟨h, hall⟩, after⟩

/-- A text is read exactly when it is one JSON value of unsigned integers. -/
theorem parse_ok_iff {src : Text} :
    (∃ ast, parse host isAlpha src = .ok ast) ↔ ∃ t, File Number src t ∧ t.All IsUnsigned := by
  constructor
  · rintro ⟨ast, h⟩
    obtain ⟨t, ht, -⟩ := file_of_parse h
    exact ⟨t, file_whole.mp ht⟩
  · rintro ⟨t, ht⟩
    obtain ⟨ast, h, -⟩ := parse_of_file host isAlpha (file_whole.mpr ht)
    exact ⟨ast, h⟩

end

/-- What is printed is read back, from both layouts and at any depth; every text that the host
    reads has escapes, which stand for it; and nothing is read but JSON of unsigned integers. -/
theorem printed_read (host : Host) (isAlpha : ℕ → Bool) :
    (∀ value, Built host value →
      (Reads host (encodeUgly host value) ∧ ∃ ast,
        parse host isAlpha (encodeUgly host value) = .ok ast ∧ ast.value.shape = value) ∧
      Reads host (Encode.encode host value) ∧ ∃ ast,
        parse host isAlpha (Encode.encode host value) = .ok ast ∧ ast.value.shape = value) ∧
    (∀ str, Reads host str → ∃ e,
      Encode.string host str = some (.StringVal e) ∧ Encode.chars host str = some (.StringVal e) ∧
      unescape e = some str) ∧
    ∀ src, Reads host src → ((∃ ast, parse host isAlpha src = .ok ast) ↔
      ∃ t, File Number src t ∧ t.All IsUnsigned) := by
  refine ⟨fun value h => ⟨⟨h.reads_encodeUgly, (says_encodeUgly h).parse⟩, h.reads_encode, ?_⟩,
    fun str hstr => ?_, fun src _ => parse_ok_iff⟩
  · exact (says_encodeHelp h (by simp [Blank])).parse
  · obtain ⟨e, he, hstands⟩ := escape_standsFor hstr
    exact ⟨e, by rw [Encode.string, he, Option.map_some], by rw [Encode.chars, he, Option.map_some],
      hstands.unescape_eq⟩

/-! ### Greater numbers of JavaScript -/

/-- The sample's Int, above 2^53, is written by JavaScript digit for digit. -/
theorem jsText_rounded : Host.jsText (2 ^ 54 + 12) = Host.decimal (2 ^ 54 + 12) := by
  have hlength : (Host.decimal (2 ^ 54 + 12)).length = 17 := by simp [Host.decimal]
  have hshortest : Host.shortest (2 ^ 54 + 12) 17 = (2 ^ 54 + 12, 0) := by decide +kernel
  rw [Host.jsText, hlength, hshortest]
  dsimp only
  rw [pow_zero, Nat.mul_one, if_pos (by norm_num)]

/-- The first sixteen digits and a zero are `2 ^ 54 + 6`, which is rounded up, and so is the sum
    with the last digit. -/
theorem readOnto_rounded :
    Host.javascript.readOnto 0 (Host.decimal (2 ^ 54 + 12)) = 2 ^ 54 + 16 := by
  have hfirst := Host.readOnto_decimal .javascript (n := (2 ^ 54 + 12) / 10)
    (Host.holds_of_lt _ (by norm_num) (by norm_num)) (by decide)
  rw [Host.decimal_of_ge (by norm_num), Host.readOnto_append, hfirst]
  decide +kernel

/-- `2 ^ 54 + 12` is a double, and is read back as `2 ^ 54 + 16`.  And a mark before a low
    surrogate is one character with it, and is printed as it is: the text ends there. -/
theorem printed_not_read :
    (Host.javascript.Holds (2 ^ 54 + 12) ∧ ∀ isAlpha, ∃ ast,
      parse .javascript isAlpha (encodeUgly .javascript (Encode.int (2 ^ 54 + 12))) = .ok ast ∧
      ast.value.shape = .Integer (2 ^ 54 + 16)) ∧
    Encode.string .javascript [0x22, 0xDC00] = some (.StringVal [0x22, 0xDC00]) ∧
    ∀ isAlpha ast,
      parse .javascript isAlpha (encodeUgly .javascript (.StringVal [0x22, 0xDC00])) ≠ .ok ast := by
  refine ⟨⟨?_, ?_⟩, rfl, ?_⟩
  · have h := Double.isDouble_mul_zpow (m := 2 ^ 52 + 3) (by norm_num) 2
    have hpow : ((2 ^ 52 + 3 : ℤ) : ℚ) * 2 ^ (2 : ℤ) = ((2 ^ 54 + 12 : ℤ) : ℚ) := by norm_num
    rw [hpow] at h
    exact h
  · intro isAlpha
    have htext : encodeUgly .javascript (Encode.int (2 ^ 54 + 12))
        = Host.decimal (2 ^ 54 + 12) := by
      rw [Encode.int, encodeUgly, Host.fromInt.eq_def]
      dsimp only
      rw [if_neg (by norm_num), ← jsText_rounded]
      rfl
    have hwhole := whole_decimal (2 ^ 54 + 12) []
    rw [List.append_nil] at hwhole
    obtain ⟨ast, h, hshape⟩ := parse_of_file .javascript isAlpha
      ⟨_, [], .nil _, .number hwhole, .nil []⟩
    rw [treeShape, readOnto_rounded] at hshape
    exact ⟨ast, by rw [htext, h], hshape⟩
  · intro isAlpha ast h
    obtain ⟨t, ⟨s, r, before, hvalue, after⟩, -⟩ := file_of_parse h
    have hmark : ¬ IsWs 0x22 := by decide
    have hlow : ¬ IsWs 0xDC00 := by decide
    -- the mark that is printed closes the string, and a surrogate is left
    obtain rfl := before.unique (.nil _) hvalue.noWs (noWs_cons hmark)
    cases hvalue with
    | number hw => cases hw with | digits hu => exact absurd hu (by decide)
    | string hbody =>
      cases hbody with
      | close => cases after with | cons hu => exact hlow hu
      | plain hu => exact hu.2.1 rfl

end Json

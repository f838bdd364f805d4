import EcoCompiler.ParseNumberProofs
import EcoCompiler.ParseString
import EcoCompiler.StringGrammar

/-! # Literals keep their value

    * `next_char` — what is left starts with one character of a literal, or a bad escape;
    * `singleString_step`, `multiString_step`, `chompChar_step` — a scanner goes over it;
    * `singleString_reads`, `singleString_only`, … — a scanner goes over a whole literal, and over
      nothing else;
    * `literals_keep_value` — what the parsers do with every text. -/

namespace SourceLiteral

open Primitives DataInt64 ParseNumber

/-! ## Counting -/

/-- Past a character: a newline ends its row, and a carriage return in triple marks does not
    count. -/
def advance (multi : Bool) (place : ℕ × ℕ) (c : ℕ) : ℕ × ℕ :=
  if c = 0x0A then (place.1 + 1, 1)
  else if multi ∧ c = 0x0D then place
  else (place.1, place.2 + 1)

/-- The row and the column past a text. -/
def after (multi : Bool) (place : ℕ × ℕ) (l : Text) : ℕ × ℕ :=
  (chars l).foldl (advance multi) place

/-- The items of one character before the text `t`. -/
inductive OneChar (t : Text) : List Item → Prop where
  | unit {u : UInt16} (hu : u ≠ 0x5C) (h : IsHigh u.toNat → ∀ v ∈ t.head?, ¬ IsLow v.toNat) :
      OneChar t [.raw u]
  | pair {u v : UInt16} (hu : IsHigh u.toNat) (hv : IsLow v.toNat) : OneChar t [.raw u, .raw v]
  | escape {c : UInt16} (hc : IsEscape c) : OneChar t [.escape c]
  | unicode {ds : Text} (hds : IsCode ds) : OneChar t [.unicode ds]

/-- What stands for one character is written with at least one unit. -/
theorem OneChar.text_ne_nil {t : Text} {g : List Item} (h : OneChar t g) : text g ≠ [] := by
  cases h <;> exact List.cons_ne_nil _ _

theorem OneChar.ne_nil {t : Text} {g : List Item} (h : OneChar t g) : g ≠ [] := by
  cases h <;> exact List.cons_ne_nil _ _

/-- Only the first unit of what follows matters. -/
theorem OneChar.of_head {t r : Text} {g : List Item} (h : OneChar t g)
    (heq : r.head? = t.head?) : OneChar r g := by
  cases h with
  | unit hu h => exact .unit hu (heq ▸ h)
  | pair hu hv => exact .pair hu hv
  | escape hc => exact .escape hc
  | unicode hds => exact .unicode hds

theorem text_append (a b : List Item) : text (a ++ b) = text a ++ text b := List.flatMap_append

theorem written_append (style : Style) (a b : List Item) :
    written style (a ++ b) = written style a ++ written style b := List.flatMap_append

/-- A unit that is no half of a pair and neither a newline nor a carriage return. -/
def IsPlain (u : UInt16) : Prop := u.toNat < 0xD800 ∧ u.toNat ≠ 0x0A ∧ u.toNat ≠ 0x0D

/-- A plain unit starts no pair. -/
theorem IsPlain.not_high {u : UInt16} (h : IsPlain u) : ¬ IsHigh u.toNat := by
  rintro ⟨hle, -⟩
  have hlt := h.1
  omega

theorem IsEscape.isPlain {c : UInt16} (h : IsEscape c) : IsPlain c := by
  rcases h with rfl | rfl | rfl | rfl | rfl | rfl
  all_goals exact ⟨by decide, by decide, by decide⟩

theorem isPlain_of_hexDigit {u : UInt16} (h : IsHexDigit u) : IsPlain u := by
  rcases h with ⟨h1, h2⟩ | ⟨h1, h2⟩ | ⟨h1, h2⟩
  all_goals exact ⟨by omega, by omega, by omega⟩

/-- The units of an escape. -/
theorem isPlain_escape {c : UInt16} (hc : IsEscape c) : ∀ u ∈ text [.escape c], IsPlain u := by
  intro u hu
  have hmem : u ∈ ([0x5C, c] : Text) := hu
  simp only [List.mem_cons, List.not_mem_nil, or_false] at hmem
  rcases hmem with rfl | rfl
  · exact ⟨by decide, by decide, by decide⟩
  · exact hc.isPlain

theorem isPlain_unicode {ds : Text} (hds : IsCode ds) : ∀ u ∈ text [.unicode ds], IsPlain u := by
  intro u hu
  rw [text, List.flatMap_singleton, Item.text] at hu
  simp only [List.mem_cons, List.mem_append, List.not_mem_nil, or_false] at hu
  rcases hu with rfl | rfl | rfl | hu | rfl
  · exact ⟨by decide, by decide, by decide⟩
  · exact ⟨by decide, by decide, by decide⟩
  · exact ⟨by decide, by decide, by decide⟩
  · exact isPlain_of_hexDigit (hds.2.2.1 u hu)
  · exact ⟨by decide, by decide, by decide⟩

/-- One character is read off by itself. -/
theorem OneChar.chars_append {t : Text} {g : List Item} (h : OneChar t g) :
    chars (text g ++ t) = chars (text g) ++ chars t := by
  have hplain : ∀ l : Text, (∀ u ∈ l, IsPlain u) → chars (l ++ t) = chars l ++ chars t := by
    intro l hl
    have hnot : ∀ u ∈ l, ¬ IsHigh u.toNat := fun u hu => (hl u hu).not_high
    have hself := SourceLiteral.chars_append hnot []
    rw [List.append_nil] at hself
    rw [SourceLiteral.chars_append hnot, hself]
    simp [chars]
  cases h with
  | unit hu h => exact chars_cons h
  | pair hu hv =>
    have hself := chars_pair hu hv []
    exact (chars_pair hu hv t).trans (congrArg (· ++ chars t) hself.symm)
  | escape hc => exact hplain _ (isPlain_escape hc)
  | unicode hds => exact hplain _ (isPlain_unicode hds)

/-- The place after a text is the place after its first character, carried on over the rest. -/
theorem OneChar.after_append {t : Text} {g : List Item} (h : OneChar t g) (multi : Bool)
    (place : ℕ × ℕ) :
    after multi place (text g ++ t) = after multi (after multi place (text g)) t := by
  rw [after, h.chars_append, List.foldl_append]
  rfl

/-- Plain units move the column on by one each and keep the row. -/
theorem after_plain {l : Text} (h : ∀ u ∈ l, IsPlain u) (multi : Bool) (place : ℕ × ℕ) :
    after multi place l = (place.1, place.2 + l.length) := by
  induction l generalizing place with
  | nil => rfl
  | cons u l ih =>
    obtain ⟨-, hnewline, hreturn⟩ := h u (List.mem_cons_self ..)
    have hhigh := (h u (List.mem_cons_self ..)).not_high
    have hadvance : advance multi place u.toNat = (place.1, place.2 + 1) := by
      rw [advance, if_neg hnewline, if_neg fun hh => hreturn hh.2]
    rw [after, chars_cons fun hu => absurd hu hhigh, List.foldl_cons, hadvance]
    refine (ih (fun v hv => h v (List.mem_cons_of_mem u hv)) _).trans ?_
    rw [List.length_cons, Nat.add_assoc, Nat.add_comm 1]

/-- A surrogate pair is one column. -/
theorem after_pair {u v : UInt16} (hu : IsHigh u.toNat) (hv : IsLow v.toNat) (multi : Bool)
    (place : ℕ × ℕ) : after multi place [u, v] = (place.1, place.2 + 1) := by
  have hlt := lt_joined hu hv
  rw [after, chars_pair hu hv, chars, List.foldl_cons, List.foldl_nil, advance,
    if_neg (by omega), if_neg (by omega)]

theorem after_unit {u : UInt16} (hnewline : u ≠ 0x0A) {multi : Bool} (hreturn : multi → u ≠ 0x0D)
    (place : ℕ × ℕ) : after multi place [u] = (place.1, place.2 + 1) := by
  have hten : u.toNat ≠ 0x0A := fun heq => hnewline (UInt16.toNat_inj.mp heq)
  have hthirteen : ¬ (multi ∧ u.toNat = 0x0D) := fun hh => hreturn hh.1 (UInt16.toNat_inj.mp hh.2)
  rw [after, chars, List.foldl_cons, List.foldl_nil, advance, if_neg hten, if_neg hthirteen]

/-- A newline starts the next row at its first column. -/
theorem after_newline (multi : Bool) (place : ℕ × ℕ) :
    after multi place [0x0A] = (place.1 + 1, 1) := rfl

end SourceLiteral

namespace ParseString

open Primitives DataInt64 ParseNumber SourceLiteral

section

variable {lib : Packages} {src t : Text} {pos end_ : ℕ} {u : UInt16}

/-! ## Chunks -/

/-- What a chunk stands for. -/
def chunkText (lib : Packages) (src : Text) : Chunk → Text
  | .slice ptr len => (src.drop ptr).take len
  | .escape word => [0x5C, word]
  | .codePoint code =>
    if code ≤ 0xFFFF then writeCode lib code
    else
      writeCode lib ((lib.divMod (code - 0x10000) 0x400).1 + 0xD800) ++
        writeCode lib ((lib.divMod (code - 0x10000) 0x400).2 + 0xDC00)

/-- The loop over the chunks appends each chunk's text to what it has written. -/
theorem writeChunks_eq (src : Text) (acc : List Text) (chunks : List Chunk) :
    (writeChunks lib src acc chunks).reverse.flatten
      = acc.reverse.flatten ++ chunks.flatMap (chunkText lib src) := by
  induction chunks generalizing acc with
  | nil => simp [writeChunks]
  | cons chunk chunks ih =>
    cases chunk with
    | slice ptr len =>
      rw [writeChunks, ih]
      simp [chunkText]
    | escape word =>
      rw [writeChunks, ih]
      simp [chunkText]
    | codePoint code =>
      rw [writeChunks]
      split
      · next hsmall =>
        rw [ih]
        simp [chunkText, hsmall]
      · next hlarge =>
        rw [ih]
        simp [chunkText, hlarge]

/-- The text of the chunks is their texts one after the other. -/
theorem fromChunks_eq (src : Text) (chunks : List Chunk) :
    fromChunks lib src chunks = chunks.flatMap (chunkText lib src) := writeChunks_eq src [] chunks

/-- A code point that has one escape or two stands for them. -/
theorem chunkText_codePoint [lib.Documented] (src : Text) {code : ℕ} (h : code ≤ 0x10FFFF) :
    chunkText lib src (.codePoint code) = codeText code := by
  rw [chunkText, codeText]
  split
  · next hsmall => exact writeCode_eq lib hsmall
  · next hlarge =>
    have hcast : (code : ℤ) - 0x10000 = ((code - 0x10000 : ℕ) : ℤ) := by omega
    have hdiv := @Packages.Documented.divMod_eq lib _ (code - 0x10000) 0x400 (by decide)
    have hhigh := @writeCode_eq lib _ ((code - 0x10000) / 0x400 + 0xD800) (by omega)
    have hlow := @writeCode_eq lib _ ((code - 0x10000) % 0x400 + 0xDC00) (by omega)
    push_cast at hdiv hhigh hlow
    rw [hcast, hdiv, ← hhigh, ← hlow]

/-- The chunk of a `\u{...}` writes what the escape stands for. -/
theorem chunkText_unicode [lib.Documented] (src : Text) {ds : Text} (hds : IsCode ds)
    (style : Style) :
    chunkText lib src (.codePoint (valueFrom 16 0 ds)) = written style [.unicode ds] := by
  rw [chunkText_codePoint src hds.2.2.2]
  simp [written, Item.written]

/-- What is collected up to an index: the chunks and the stretch that is still open. -/
def pending (lib : Packages) (src : Text) (initialPos pos : ℕ) (revChunks : List Chunk) : Text :=
  revChunks.reverse.flatMap (chunkText lib src) ++ (src.drop initialPos).take (pos - initialPos)

theorem pending_self (src : Text) (pos : ℕ) (revChunks : List Chunk) :
    pending lib src pos pos revChunks = revChunks.reverse.flatMap (chunkText lib src) := by
  simp [pending]

/-- The end of a literal writes what is pending. -/
theorem finalize_eq (src : Text) (start end_ : ℕ) (revChunks : List Chunk) :
    finalize lib src start end_ revChunks = pending lib src start end_ revChunks := by
  rw [finalize, fromChunks_eq]
  split
  · next heq => rw [heq, pending_self]
  · simp [pending, chunkText]

/-- Closing the slice and adding an escape appends the escape's text to what is pending. -/
theorem pending_addEscape (src : Text) (chunk : Chunk) (initialPos pos newPos : ℕ)
    (revChunks : List Chunk) :
    pending lib src newPos newPos (addEscape chunk initialPos pos revChunks)
      = pending lib src initialPos pos revChunks ++ chunkText lib src chunk := by
  rw [pending_self, addEscape]
  split
  · next heq =>
    rw [heq, pending_self]
    simp
  · simp [pending, chunkText]

/-- The open stretch goes on. -/
theorem pending_extend (lib : Packages) {l : Text} {initialPos : ℕ} (h : At src pos end_ (l ++ t))
    (hle : initialPos ≤ pos) (revChunks : List Chunk) :
    pending lib src initialPos (pos + l.length) revChunks
      = pending lib src initialPos pos revChunks ++ l := by
  obtain ⟨k, rfl⟩ := Nat.exists_eq_add_of_le hle
  have htake := h.take
  rw [← List.drop_drop] at htake
  have hk : initialPos + k + l.length - initialPos = k + l.length := by omega
  rw [pending, pending, hk, Nat.add_sub_cancel_left, List.take_add, htake, List.append_assoc]

/-! ## The next character -/

/-- Inside the source the unchecked read is the checked one. -/
theorem unsafeIndex_eq (h : At src pos end_ (u :: t)) :
    unsafeIndex src pos = charAtPos pos src := by
  obtain ⟨t', hd, -⟩ := h.drop_eq
  rw [unsafeIndex, charAtPos, hd]
  cases t' with
  | nil => rfl
  | cons v t' =>
    rw [uncons]
    by_cases hpair : IsHigh u.toNat ∧ IsLow v.toNat
    · rw [if_pos hpair]
    · rw [if_neg hpair]

/-- Below the surrogates the index read tells which unit stands at the cursor. -/
theorem unsafeIndex_eq_iff (h : At src pos end_ (u :: t)) {c : UInt16} (hc : c.toNat < 0xD800) :
    unsafeIndex src pos = c.toNat ↔ u = c := by
  rw [unsafeIndex_eq h, charAtPos_eq_iff h hc, UInt16.toNat_inj]

/-- The test for a quote, on the text that is left. -/
theorem isDoubleQuote_iff (h : At src pos end_ t) :
    isDoubleQuote src pos end_ = true ↔ t.head? = some 0x22 := by
  rw [isDoubleQuote, Bool.and_eq_true, decide_eq_true_eq, decide_eq_true_eq]
  cases t with
  | nil => exact iff_of_false (fun hh => Nat.not_le.mpr hh.1 h.le_of_nil) (by simp)
  | cons u t =>
    have hquote := unsafeIndex_eq_iff h (c := 0x22) (by decide)
    rw [List.head?_cons, Option.some.injEq, ← hquote]
    exact and_iff_right h.lt_of_cons

/-- A code point is one unit or two. -/
theorem codePointAt_width_le (src : Text) (pos end_ code : ℕ) :
    (codePointAt src pos end_ code).2 ≤ 2 := by
  rw [codePointAt]
  split
  · split <;> simp
  · split
    · dsimp only
      split <;> simp
    · simp

/-- The last unit of the source is a code point of its own. -/
theorem codePointAt_last {code : ℕ} (h : end_ ≤ pos + 1) :
    (codePointAt src pos end_ code).2 = 1 := by
  rw [codePointAt]
  split
  · rw [if_neg h.not_gt]
  · rw [if_neg fun hh => h.not_gt hh.2]

/-- A pair is as wide as its two units, and every other character as one. -/
theorem charWidthAt_eq (h : At src pos end_ (u :: t)) :
    charWidthAt src pos end_ (unsafeIndex src pos)
      = if IsHigh u.toNat ∧ ∃ v ∈ t.head?, IsLow v.toNat then 2 else 1 := by
  obtain ⟨huncons, hwidth, -⟩ := codePointAt_spec h
  have hle := codePointAt_width_le src pos end_ (charAtPos pos src)
  rw [unsafeIndex_eq h, charWidthAt]
  cases t with
  | nil =>
    rw [codePointAt_last h.tail.le_of_nil, if_neg]
    rintro ⟨-, v, hv, -⟩
    cases hv
  | cons v t =>
    generalize codePointAt src pos end_ (charAtPos pos src) = p at huncons hwidth hle
    rw [uncons] at huncons
    split_ifs at huncons with hpair
    · have hdrop := congrArg List.length (Prod.mk.inj (Option.some.inj huncons)).2
      simp only [List.length_drop, List.length_cons] at hdrop
      rw [if_pos ⟨hpair.1, v, rfl, hpair.2⟩]
      omega
    · have hdrop := congrArg List.length (Prod.mk.inj (Option.some.inj huncons)).2
      simp only [List.length_drop, List.length_cons] at hdrop
      rw [if_neg]
      · omega
      · rintro ⟨hu, w, hw, hlow⟩
        obtain rfl := Option.some.inj hw
        exact hpair ⟨hu, hlow⟩

/-! ## Escapes -/

/-- The value that hex digits spell is below their power of sixteen. -/
theorem valueFrom_lt {ds : Text} (hds : ∀ u ∈ ds, IsHexDigit u) (n : ℕ) :
    valueFrom 16 n ds < 16 ^ ds.length * (n + 1) := by
  induction ds generalizing n with
  | nil => simp [valueFrom]
  | cons u ds ih =>
    have hdigit : digitValue u < 16 := by
      rw [digitValue]
      rcases hds u (List.mem_cons_self ..) with ⟨h1, h2⟩ | ⟨h1, h2⟩ | ⟨h1, h2⟩
      all_goals
        split_ifs <;> omega
    have hrest := ih (fun v hv => hds v (List.mem_cons_of_mem u hv)) (16 * n + digitValue u)
    calc valueFrom 16 n (u :: ds)
        = valueFrom 16 (16 * n + digitValue u) ds := rfl
      _ < 16 ^ ds.length * (16 * n + digitValue u + 1) := hrest
      _ ≤ 16 ^ ds.length * (16 * (n + 1)) := Nat.mul_le_mul_left _ (by omega)
      _ = 16 ^ (u :: ds).length * (n + 1) := by
        rw [List.length_cons, Nat.pow_succ, Nat.mul_assoc]

variable (isAlpha : ℕ → Bool)

/-- Digits up to a closing brace. -/
theorem chompHex_digits {ds : Text} (hds : ∀ u ∈ ds, IsHexDigit u)
    (h : At src pos end_ (ds ++ t)) (ht : ∀ u ∈ t.head?, ¬ IsHexDigit u) :
    (chompHex isAlpha src pos end_).1 = pos + ds.length ∧
      (¬ StartsInner isAlpha t → (chompHex isAlpha src pos end_).2
        = if ds = [] then -1 else wrap (valueFrom 16 0 ds)) := by
  have hskip := chompHexHelp_skip isAlpha hds h (-1) 0
  have hzero : wrap ((0 : ℕ) : ℤ) = 0 := rfl
  rw [hzero] at hskip
  rw [chompHex, hskip]
  exact chompHexHelp_end isAlpha h.append ht _ _

theorem not_startsInner_brace (t : Text) : ¬ StartsInner isAlpha (0x7D :: t) := by
  rintro ⟨code, rest, huncons, hinner⟩
  have hcode : code = 0x7D := by
    cases t with
    | nil => exact (Prod.mk.inj (Option.some.inj huncons)).1.symm
    | cons v t =>
      rw [uncons, if_neg fun hh => absurd hh.1 (by decide)] at huncons
      exact (Prod.mk.inj (Option.some.inj huncons)).1.symm
  subst hcode
  rcases hinner with hh | hh | hh | hh | hh <;> omega

theorem wrap_code {n : ℕ} (h : n < 2 ^ 32) : wrap (n : ℤ) = n := by
  rw [wrap, Int.bmod_eq_of_le] <;> omega

/-- Four to six hex digits between braces are read as their code point. -/
theorem eatUnicode_code {ds : Text} (hds : IsCode ds)
    (h : At src pos end_ (0x7B :: (ds ++ 0x7D :: t))) (row col : ℕ) :
    eatUnicode isAlpha src pos end_ row col
      = .EscapeUnicode (ds.length + 4) (valueFrom 16 0 ds) := by
  obtain ⟨hfour, hsix, hhex, hvalue⟩ := hds
  have hbrace := (unsafeIndex_eq_iff h (c := 0x7B) (by decide)).mpr rfl
  have hclose := (unsafeIndex_eq_iff h.tail.append (c := 0x7D) (by decide)).mpr rfl
  have hlt := h.tail.append.lt_of_cons
  obtain ⟨hpos, hcode⟩ := chompHex_digits isAlpha hhex h.tail
    (fun u hu => by obtain rfl := Option.some.inj hu; decide)
  have hne : ds ≠ [] := by
    rintro rfl
    exact absurd hfour (by decide)
  have hcode := hcode (not_startsInner_brace isAlpha t)
  rw [if_neg hne, wrap_code (by omega)] at hcode
  rw [eatUnicode, if_neg (not_or.mpr ⟨h.lt_of_cons.not_ge, fun hn => hn hbrace⟩)]
  dsimp only
  rw [hpos, hcode, if_neg (not_or.mpr ⟨hlt.not_ge, fun hn => hn hclose⟩), Nat.add_sub_cancel_left,
    if_neg (by omega), if_neg (by omega), Int.toNat_natCast]

/-- Whatever is accepted is a code. -/
theorem eatUnicode_only {row col delta code : ℕ} (h : At src pos end_ t)
    (heq : eatUnicode isAlpha src pos end_ row col = .EscapeUnicode delta code) :
    ∃ ds t', t = 0x7B :: (ds ++ 0x7D :: t') ∧ IsCode ds := by
  rw [eatUnicode] at heq
  split at heq
  · cases heq
  next hbrace =>
  obtain ⟨hpos, hbrace⟩ := not_or.mp hbrace
  rcases t with _ | ⟨u, t⟩
  · exact absurd h.le_of_nil hpos
  obtain rfl := (unsafeIndex_eq_iff h (c := 0x7B) (by decide)).mp (not_not.mp hbrace)
  obtain ⟨ds, t', rfl, hhex, hend⟩ := exists_run IsHexDigit t
  obtain ⟨hnew, hcode⟩ := chompHex_digits isAlpha hhex h.tail hend
  have hlt := valueFrom_lt hhex 0
  dsimp only at heq
  rw [hnew, Nat.add_sub_cancel_left] at heq
  split_ifs at heq with hclose hrange hdigits
  obtain ⟨hnext, hclose⟩ := not_or.mp hclose
  rcases t' with _ | ⟨v, t'⟩
  · exact absurd h.tail.append.le_of_nil hnext
  obtain rfl := (unsafeIndex_eq_iff h.tail.append (c := 0x7D) (by decide)).mp (not_not.mp hclose)
  have hne : ds ≠ [] := by
    rintro rfl
    exact hdigits (Or.inl (by decide))
  have hpow : 16 ^ ds.length ≤ 16 ^ 6 := Nat.pow_le_pow_right (by decide) (by omega)
  rw [if_neg hne, wrap_code (by omega)] at hcode
  have hcode := hcode (not_startsInner_brace isAlpha t')
  exact ⟨ds, t', rfl, by omega, by omega, hhex, by omega⟩

/-- A unicode escape never answers with a plain one. -/
theorem eatUnicode_ne_normal {row col : ℕ} :
    eatUnicode isAlpha src pos end_ row col ≠ .EscapeNormal := by
  rw [eatUnicode]
  dsimp only
  split_ifs
  all_goals exact Escape.noConfusion

/-- A backslash before one of the six characters is a plain escape. -/
theorem eatEscape_normal {c : UInt16} (hc : IsEscape c) (h : At src pos end_ (c :: t))
    (row col : ℕ) : eatEscape isAlpha src pos end_ row col = .EscapeNormal := by
  have hword := (unsafeIndex_eq_iff h hc.isPlain.1).mpr rfl
  rw [eatEscape, if_neg h.lt_of_cons.not_ge, hword]
  rcases hc with rfl | rfl | rfl | rfl | rfl | rfl <;> rfl

/-- A backslash, `u` and a code between braces is a unicode escape. -/
theorem eatEscape_code {ds : Text} (hds : IsCode ds)
    (h : At src pos end_ (0x75 :: 0x7B :: (ds ++ 0x7D :: t))) (row col : ℕ) :
    eatEscape isAlpha src pos end_ row col
      = .EscapeUnicode (ds.length + 4) (valueFrom 16 0 ds) := by
  have hword := (unsafeIndex_eq_iff h (c := 0x75) (by decide)).mpr rfl
  rw [eatEscape, if_neg h.lt_of_cons.not_ge, hword]
  exact eatUnicode_code isAlpha hds h.tail row col

/-- A plain escape is answered at those six characters alone. -/
theorem eatEscape_normal_only {row col : ℕ} (h : At src pos end_ t)
    (heq : eatEscape isAlpha src pos end_ row col = .EscapeNormal) :
    ∃ c t', t = c :: t' ∧ IsEscape c := by
  rw [eatEscape] at heq
  split at heq
  · cases heq
  next hpos =>
  rcases t with _ | ⟨u, t⟩
  · exact absurd h.le_of_nil hpos
  refine ⟨u, t, rfl, ?_⟩
  split at heq
  · next hword => exact Or.inl ((unsafeIndex_eq_iff h (c := 0x6E) (by decide)).mp hword)
  · next hword =>
    exact Or.inr (Or.inl ((unsafeIndex_eq_iff h (c := 0x72) (by decide)).mp hword))
  · next hword =>
    exact Or.inr (Or.inr (Or.inl ((unsafeIndex_eq_iff h (c := 0x74) (by decide)).mp hword)))
  · next hword =>
    obtain rfl := (unsafeIndex_eq_iff h (c := 0x22) (by decide)).mp hword
    decide
  · next hword =>
    obtain rfl := (unsafeIndex_eq_iff h (c := 0x27) (by decide)).mp hword
    decide
  · next hword =>
    obtain rfl := (unsafeIndex_eq_iff h (c := 0x5C) (by decide)).mp hword
    decide
  · exact absurd heq (eatUnicode_ne_normal isAlpha)
  · cases heq

/-- A unicode escape is answered at `u`, a brace, four to six hex digits and a brace alone. -/
theorem eatEscape_code_only {row col delta code : ℕ} (h : At src pos end_ t)
    (heq : eatEscape isAlpha src pos end_ row col = .EscapeUnicode delta code) :
    ∃ ds t', t = 0x75 :: 0x7B :: (ds ++ 0x7D :: t') ∧ IsCode ds := by
  rw [eatEscape] at heq
  split at heq
  · cases heq
  next hpos =>
  rcases t with _ | ⟨u, t⟩
  · exact absurd h.le_of_nil hpos
  split at heq <;> try cases heq
  next hword =>
  obtain rfl := (unsafeIndex_eq_iff h (c := 0x75) (by decide)).mp hword
  obtain ⟨ds, t', rfl, hds⟩ := eatUnicode_only isAlpha h.tail heq
  exact ⟨ds, t', rfl, hds⟩

/-- What is left starts with one character of a literal, or with a bad escape. -/
theorem next_char (row col : ℕ) (h : At src pos end_ (u :: t)) :
    (∃ g t', u :: t = text g ++ t' ∧ OneChar t' g) ∨
      (u = 0x5C ∧ (eatEscape isAlpha src (pos + 1) end_ row col = .EscapeEndOfFile ∨
        ∃ r c x, eatEscape isAlpha src (pos + 1) end_ row col = .EscapeProblem r c x)) := by
  by_cases hback : u = 0x5C
  · subst hback
    cases heq : eatEscape isAlpha src (pos + 1) end_ row col with
    | EscapeNormal =>
      obtain ⟨c, t', rfl, hc⟩ := eatEscape_normal_only isAlpha h.tail heq
      exact Or.inl ⟨[.escape c], t', rfl, .escape hc⟩
    | EscapeUnicode delta code =>
      obtain ⟨ds, t', rfl, hds⟩ := eatEscape_code_only isAlpha h.tail heq
      refine Or.inl ⟨[.unicode ds], t', ?_, .unicode hds⟩
      simp [text, Item.text]
    | EscapeEndOfFile => exact Or.inr ⟨rfl, Or.inl rfl⟩
    | EscapeProblem r c x => exact Or.inr ⟨rfl, Or.inr ⟨r, c, x, rfl⟩⟩
  · by_cases hpair : IsHigh u.toNat → ∀ v ∈ t.head?, ¬ IsLow v.toNat
    · exact Or.inl ⟨[.raw u], t, rfl, .unit hback hpair⟩
    · push Not at hpair
      obtain ⟨hu, v, hv, hlow⟩ := hpair
      rcases t with _ | ⟨w, t⟩
      · cases hv
      · obtain rfl := Option.some.inj hv
        exact Or.inl ⟨[.raw u, .raw w], t, rfl, .pair hu hlow⟩

/-- The first unit of a pair is none that a scanner looks for. -/
theorem ne_of_high (hu : IsHigh u.toNat) {c : UInt16} (hc : c.toNat < 0xD800) : u ≠ c := by
  rintro rfl
  exact absurd hu.1 hc.not_ge

/-! ## One-line strings -/

/-- One round of the scanner of one-line strings, branch by branch. -/
theorem singleString_cons (h : At src pos end_ (u :: t)) (row col initialPos : ℕ)
    (revChunks : List Chunk) :
    singleString isAlpha lib src pos end_ row col initialPos revChunks
      = if u = 0x22 then
          .srOk (pos + 1) row (col + 1) (pending lib src initialPos pos revChunks) false
        else if u = 0x0A then .srErr row col .StringEndless_Single
        else if u = 0x27 then
          singleString isAlpha lib src (pos + 1) end_ row (col + 1) (pos + 1)
            (addEscape singleQuote initialPos pos revChunks)
        else if u = 0x5C then
          match eatEscape isAlpha src (pos + 1) end_ row col with
          | .EscapeNormal =>
            singleString isAlpha lib src (pos + 2) end_ row (col + 2) initialPos revChunks
          | .EscapeUnicode delta code =>
            singleString isAlpha lib src (pos + delta) end_ row (col + delta) (pos + delta)
              (addEscape (.codePoint code) initialPos pos revChunks)
          | .EscapeProblem r c x => .srErr r c (.StringEscape x)
          | .EscapeEndOfFile => .srErr row (col + 1) .StringEndless_Single
        else
          singleString isAlpha lib src
            (pos + if IsHigh u.toNat ∧ ∃ v ∈ t.head?, IsLow v.toNat then 2 else 1) end_ row
            (col + 1) initialPos revChunks := by
  have hquote := unsafeIndex_eq_iff h (c := 0x22) (by decide)
  have hnewline := unsafeIndex_eq_iff h (c := 0x0A) (by decide)
  have happ := unsafeIndex_eq_iff h (c := 0x27) (by decide)
  have hback := unsafeIndex_eq_iff h (c := 0x5C) (by decide)
  rw [singleString.eq_def, if_neg h.lt_of_cons.not_ge, finalize_eq]
  dsimp only
  refine if_congr hquote rfl (if_congr hnewline rfl (if_congr happ rfl (if_congr hback ?_ ?_)))
  · cases heq : eatEscape isAlpha src (pos + 1) end_ row col
    all_goals
      split <;> simp_all
  · rw [charWidthAt_eq h]

theorem ne_of_low (hu : IsLow u.toNat) {c : UInt16} (hc : c.toNat < 0xD800) : u ≠ c := by
  rintro rfl
  have hle := hu.1
  omega

/-- One character may stand in a literal when its first unit may. -/
theorem ok_of_head {style : Style} {g : List Item} (hg : OneChar t g)
    (hhead : ∀ u ∈ (text g).head?, (style = .single → u ≠ 0x22 ∧ u ≠ 0x0A) ∧
      (style = .char → u ≠ 0x27 ∧ u ≠ 0x0A)) : ∀ i ∈ g, i.Ok style := by
  intro i hi
  cases hg with
  | unit hback hnot =>
    obtain rfl := List.mem_singleton.mp hi
    exact ⟨hback, (hhead _ rfl).1, (hhead _ rfl).2⟩
  | pair hu hv =>
    simp only [List.mem_cons, List.not_mem_nil, or_false] at hi
    rcases hi with rfl | rfl
    · exact ⟨ne_of_high hu (by decide), (hhead _ rfl).1, (hhead _ rfl).2⟩
    · exact ⟨ne_of_low hv (by decide),
        fun _ => ⟨ne_of_low hv (by decide), ne_of_low hv (by decide)⟩,
        fun _ => ⟨ne_of_low hv (by decide), ne_of_low hv (by decide)⟩⟩
  | escape hc =>
    obtain rfl := List.mem_singleton.mp hi
    exact hc
  | unicode hds =>
    obtain rfl := List.mem_singleton.mp hi
    exact hds

/-- The unit at the cursor is the first of the character written there. -/
theorem head_text {g : List Item} {t' : Text} (heq : u :: t = text g ++ t') (hne : text g ≠ [])
    {v : UInt16} (hv : v ∈ (text g).head?) : u = v := by
  cases hg : text g with
  | nil => exact absurd hg hne
  | cons w l =>
    rw [hg] at heq hv
    rw [(List.cons.inj heq).1]
    exact Option.some.inj hv

theorem written_unit (style : Style) (u : UInt16) :
    written style [.raw u] = Item.written style (.raw u) := List.flatMap_singleton ..

/-- The units of a pair are recorded as they are. -/
theorem written_pair (style : Style) {u v : UInt16} (hu : IsHigh u.toNat) (hv : IsLow v.toNat) :
    written style [.raw u, .raw v] = [u, v] := by
  have hself : ∀ w : UInt16, (∀ c : UInt16, c.toNat < 0xD800 → w ≠ c) →
      Item.written style (.raw w) = [w] := by
    intro w hw
    rw [Item.written, if_neg fun hh => hw 0x27 (by decide) hh.1,
      if_neg fun hh => hw 0x22 (by decide) hh.1, if_neg fun hh => hw 0x0A (by decide) hh.1,
      if_neg fun hh => hw 0x0D (by decide) hh.1]
  rw [written, List.flatMap_cons, List.flatMap_singleton, hself u fun c hc => ne_of_high hu hc,
    hself v fun c hc => ne_of_low hv hc]
  rfl

theorem text_unicode (ds t : Text) :
    text [.unicode ds] ++ t = 0x5C :: 0x75 :: 0x7B :: (ds ++ 0x7D :: t) := by
  simp [text, Item.text]

theorem length_text_unicode (ds : Text) : (text [.unicode ds]).length = ds.length + 4 := by
  simp [text, Item.text]

/-- How a scanner goes over one character: the record grows by what is written for it. -/
theorem singleString_step (lib : Packages) [lib.Documented] {g : List Item} (hg : OneChar t g)
    (hok : ∀ i ∈ g, i.Ok .single)
    (h : At src pos end_ (text g ++ t)) (row col : ℕ) {initialPos : ℕ} (hle : initialPos ≤ pos)
    (revChunks : List Chunk) :
    ∃ initialPos' revChunks', initialPos' ≤ pos + (text g).length ∧
      pending lib src initialPos' (pos + (text g).length) revChunks'
        = pending lib src initialPos pos revChunks ++ written .single g ∧
      singleString isAlpha lib src pos end_ row col initialPos revChunks
        = singleString isAlpha lib src (pos + (text g).length) end_
          (after false (row, col) (text g)).1 (after false (row, col) (text g)).2
          initialPos' revChunks' := by
  have hextend := pending_extend lib h hle revChunks
  -- one case for each kind of character; the written chunk grows only where the text differs
  cases hg with
  | @unit u hback hnot =>
    obtain ⟨-, hsingle, -⟩ := hok _ (List.mem_singleton_self _)
    obtain ⟨hquote, hnewline⟩ := hsingle rfl
    have hplace : after false (row, col) (text [.raw u]) = (row, col + 1) :=
      after_unit hnewline (fun hh => absurd hh (by decide)) _
    have hpair : ¬ (IsHigh u.toNat ∧ ∃ v ∈ t.head?, IsLow v.toNat) := by
      rintro ⟨hu, v, hv, hlow⟩
      exact hnot hu v hv hlow
    have hat : At src pos end_ (u :: t) := h
    rw [singleString_cons isAlpha hat, hplace, if_neg hquote, if_neg hnewline, written_unit]
    -- an apostrophe is written escaped, so the chunk is cut there
    by_cases happ : u = 0x27
    · subst happ
      rw [if_pos rfl]
      exact ⟨_, _, le_rfl, pending_addEscape .., rfl⟩
    · rw [if_neg happ, if_neg hback, if_neg hpair]
      refine ⟨initialPos, revChunks, Nat.le_add_right_of_le hle, ?_, rfl⟩
      rw [hextend]
      simp [Item.written, text, Item.text, happ]
  | @pair u v hu hv =>
    have hplace : after false (row, col) (text [.raw u, .raw v]) = (row, col + 1) :=
      after_pair hu hv _ _
    have hne := fun (c : UInt16) (hc : c.toNat < 0xD800) => ne_of_high hu hc
    rw [singleString_cons isAlpha h, hplace, if_neg (hne 0x22 (by decide)),
      if_neg (hne 0x0A (by decide)), if_neg (hne 0x27 (by decide)), if_neg (hne 0x5C (by decide)),
      if_pos ⟨hu, v, rfl, hv⟩, written_pair _ hu hv]
    exact ⟨initialPos, revChunks, Nat.le_add_right_of_le hle, hextend, rfl⟩
  | @escape c hc =>
    have hplace : after false (row, col) (text [.escape c]) = (row, col + 2) :=
      after_plain (isPlain_escape hc) _ _
    rw [singleString_cons isAlpha h, hplace, if_neg (by decide), if_neg (by decide),
      if_neg (by decide), if_pos rfl, eatEscape_normal isAlpha hc h.tail]
    exact ⟨initialPos, revChunks, Nat.le_add_right_of_le hle, hextend, rfl⟩
  | @unicode ds hds =>
    have hplace := after_plain (isPlain_unicode hds) false (row, col)
    rw [text_unicode] at h
    rw [singleString_cons isAlpha h, hplace, length_text_unicode, if_neg (by decide),
      if_neg (by decide), if_neg (by decide), if_pos rfl, eatEscape_code isAlpha hds h.tail]
    refine ⟨_, _, le_rfl, ?_, rfl⟩
    rw [pending_addEscape, chunkText_unicode src hds]

/-- A text starts with the closing quote, with one character of the string, or with what fails. -/
theorem singleString_cases (h : At src pos end_ t) (row col initialPos : ℕ)
    (revChunks : List Chunk) :
    (∃ t', t = 0x22 :: t') ∨
    (∃ g t', t = text g ++ t' ∧ OneChar t' g ∧ ∀ i ∈ g, i.Ok .single) ∨
    ∃ r c x, singleString isAlpha lib src pos end_ row col initialPos revChunks = .srErr r c x := by
  cases t with
  | nil =>
    refine Or.inr (Or.inr ⟨row, col, .StringEndless_Single, ?_⟩)
    rw [singleString.eq_def, if_pos h.le_of_nil]
  | cons u t =>
    by_cases hquote : u = 0x22
    · exact Or.inl ⟨t, by rw [hquote]⟩
    refine Or.inr ?_
    by_cases hnewline : u = 0x0A
    · refine Or.inr ⟨row, col, .StringEndless_Single, ?_⟩
      rw [singleString_cons isAlpha h, if_neg hquote, if_pos hnewline]
    rcases next_char isAlpha row col h with ⟨g, t', heq, hg⟩ | ⟨rfl, hbad⟩
    · refine Or.inl ⟨g, t', heq, hg, ok_of_head hg fun v hv => ?_⟩
      obtain rfl := head_text heq hg.text_ne_nil hv
      exact ⟨fun _ => ⟨hquote, hnewline⟩, fun hstyle => absurd hstyle (by decide)⟩
    · refine Or.inr ?_
      rw [singleString_cons isAlpha h, if_neg hquote, if_neg hnewline, if_neg (by decide),
        if_pos rfl]
      rcases hbad with hend | ⟨r, c, x, hproblem⟩
      · rw [hend]
        exact ⟨_, _, _, rfl⟩
      · rw [hproblem]
        exact ⟨_, _, _, rfl⟩

/-- The items of a literal before its closing quotes start with one character. -/
theorem exists_oneChar {style : Style} {items : List Item} (hne : items ≠ [])
    (hok : ∀ i ∈ items, i.Ok style) (ht : ∀ u ∈ t.head?, ¬ IsLow u.toNat) :
    ∃ g items', items = g ++ items' ∧ OneChar (text items' ++ t) g := by
  cases items with
  | nil => exact absurd rfl hne
  | cons i items =>
    have hi := hok i (List.mem_cons_self ..)
    cases i with
    | escape c => exact ⟨[.escape c], items, rfl, .escape hi⟩
    | unicode ds => exact ⟨[.unicode ds], items, rfl, .unicode hi⟩
    | raw u =>
      by_cases hpair : IsHigh u.toNat → ∀ v ∈ (text items ++ t).head?, ¬ IsLow v.toNat
      · exact ⟨[.raw u], items, rfl, .unit hi.1 hpair⟩
      push Not at hpair
      obtain ⟨hu, v, hv, hlow⟩ := hpair
      cases items with
      | nil => exact absurd hlow (ht v hv)
      | cons j items =>
        cases j with
        | raw w =>
          obtain rfl := Option.some.inj hv
          exact ⟨[.raw u, .raw w], items, rfl, .pair hu hlow⟩
        | escape c =>
          obtain rfl := Option.some.inj hv
          exact absurd hlow (by decide)
        | unicode ds =>
          obtain rfl := Option.some.inj hv
          exact absurd hlow (by decide)

/-- A string is scanned to its closing quote. -/
theorem singleString_reads [lib.Documented] {items : List Item} (hok : ∀ i ∈ items, i.Ok .single)
    (h : At src pos end_ (text items ++ 0x22 :: t)) (row col : ℕ) {initialPos : ℕ}
    (hle : initialPos ≤ pos) (revChunks : List Chunk) :
    singleString isAlpha lib src pos end_ row col initialPos revChunks
      = .srOk (pos + (text items).length + 1)
        (after false (row, col) (text items ++ [0x22])).1
        (after false (row, col) (text items ++ [0x22])).2
        (pending lib src initialPos pos revChunks ++ written .single items) false := by
  induction hn : items.length using Nat.strong_induction_on
    generalizing items pos row col initialPos revChunks with
  | _ n ih =>
    rcases eq_or_ne items [] with rfl | hne
    · rw [singleString_cons isAlpha h, if_pos rfl]
      simp [text, written, after, chars, advance]
    · obtain ⟨g, items', rfl, hg⟩ := exists_oneChar (t := 0x22 :: t) hne hok (by simp [IsLow])
      have hok' : ∀ i ∈ items', i.Ok .single := fun i hi => hok i (List.mem_append_right g hi)
      rw [text_append, List.append_assoc] at h
      obtain ⟨initialPos', revChunks', hle', hpending, hstep⟩ := singleString_step isAlpha lib hg
        (fun i hi => hok i (List.mem_append_left items' hi)) h row col hle revChunks
      have hlt : items'.length < n := by
        have hpos := List.length_pos_of_ne_nil hg.ne_nil
        rw [← hn, List.length_append]
        omega
      have hplace := (hg.of_head (r := text items' ++ [0x22]) (by simp)).after_append false
        (row, col)
      rw [hstep, ih _ hlt hok' h.append _ _ hle' _ rfl, text_append, written_append, hpending,
        List.length_append, List.append_assoc, List.append_assoc, hplace, Nat.add_assoc pos]

/-- Nothing else is scanned as a string. -/
theorem singleString_only [lib.Documented] {p row' col' : ℕ} {w : Text} {multiline : Bool}
    (h : At src pos end_ t)
    {row col initialPos : ℕ} (hle : initialPos ≤ pos) {revChunks : List Chunk}
    (heq : singleString isAlpha lib src pos end_ row col initialPos revChunks
      = .srOk p row' col' w multiline) :
    ∃ items t', t = text items ++ 0x22 :: t' ∧ ∀ i ∈ items, i.Ok .single := by
  induction hn : t.length using Nat.strong_induction_on
    generalizing t pos row col initialPos revChunks with
  | _ n ih =>
    rcases singleString_cases isAlpha h row col initialPos revChunks with
      ⟨t', rfl⟩ | ⟨g, t', rfl, hg, hok⟩ | ⟨r, c, x, herr⟩
    · exact ⟨[], t', rfl, fun i hi => absurd hi List.not_mem_nil⟩
    · obtain ⟨initialPos', revChunks', hle', -, hstep⟩ :=
        singleString_step isAlpha lib hg hok h row col hle revChunks
      have hlt : t'.length < n := by
        have hpos := List.length_pos_of_ne_nil hg.text_ne_nil
        rw [← hn, List.length_append]
        omega
      obtain ⟨items, t'', rfl, hitems⟩ := ih _ hlt h.append hle' (hstep.symm.trans heq) rfl
      refine ⟨g ++ items, t'', by rw [text_append, List.append_assoc], fun i hi => ?_⟩
      exact (List.mem_append.mp hi).elim (hok i) (hitems i)
    · cases herr.symm.trans heq

/-! ## Strings in triple marks -/

/-- The three tests at the cursor ask for the three quotes that close the string. -/
theorem closes_iff (h : At src pos end_ (u :: t)) :
    (unsafeIndex src pos = doubleQuoteMark ∧ isDoubleQuote src (pos + 1) end_ ∧
      isDoubleQuote src (pos + 2) end_) ↔ quotes true <+: u :: t := by
  have hquote : unsafeIndex src pos = doubleQuoteMark ↔ u = 0x22 :=
    unsafeIndex_eq_iff h (c := 0x22) (by decide)
  rw [hquote, isDoubleQuote_iff h.tail]
  cases t with
  | nil => simp [quotes]
  | cons v t =>
    rw [isDoubleQuote_iff h.tail.tail]
    cases t with
    | nil => simp [quotes]
    | cons w t =>
      simp [quotes, eq_comm]

/-- One round of the scanner of multiline strings, branch by branch. -/
theorem multiString_cons (h : At src pos end_ (u :: t)) (row col initialPos sr sc : ℕ)
    (revChunks : List Chunk) :
    multiString isAlpha lib src pos end_ row col initialPos sr sc revChunks
      = if quotes true <+: u :: t then
          .srOk (pos + 3) row (col + 3) (pending lib src initialPos pos revChunks) true
        else if u = 0x27 then
          multiString isAlpha lib src (pos + 1) end_ row (col + 1) (pos + 1) sr sc
            (addEscape singleQuote initialPos pos revChunks)
        else if u = 0x0A then
          multiString isAlpha lib src (pos + 1) end_ (row + 1) 1 (pos + 1) sr sc
            (addEscape newline initialPos pos revChunks)
        else if u = 0x0D then
          multiString isAlpha lib src (pos + 1) end_ row col (pos + 1) sr sc
            (addEscape carriageReturn initialPos pos revChunks)
        else if u = 0x5C then
          match eatEscape isAlpha src (pos + 1) end_ row col with
          | .EscapeNormal =>
            multiString isAlpha lib src (pos + 2) end_ row (col + 2) initialPos sr sc revChunks
          | .EscapeUnicode delta code =>
            multiString isAlpha lib src (pos + delta) end_ row (col + delta) (pos + delta) sr sc
              (addEscape (.codePoint code) initialPos pos revChunks)
          | .EscapeProblem r c x => .srErr r c (.StringEscape x)
          | .EscapeEndOfFile => .srErr sr sc .StringEndless_Multi
        else
          multiString isAlpha lib src
            (pos + if IsHigh u.toNat ∧ ∃ v ∈ t.head?, IsLow v.toNat then 2 else 1) end_ row
            (col + 1) initialPos sr sc revChunks := by
  have happ := unsafeIndex_eq_iff h (c := 0x27) (by decide)
  have hnewline := unsafeIndex_eq_iff h (c := 0x0A) (by decide)
  have hreturn := unsafeIndex_eq_iff h (c := 0x0D) (by decide)
  have hback := unsafeIndex_eq_iff h (c := 0x5C) (by decide)
  rw [multiString.eq_def, if_neg h.lt_of_cons.not_ge, finalize_eq]
  dsimp only
  refine if_congr (closes_iff h) rfl (if_congr happ rfl (if_congr hnewline rfl
    (if_congr hreturn rfl (if_congr hback ?_ ?_))))
  · cases heq : eatEscape isAlpha src (pos + 1) end_ row col
    all_goals
      split <;> simp_all
  · rw [charWidthAt_eq h]

/-- Over one character that does not begin the closing quotes the scanner goes on, with that
    character's text added to what is pending. -/
theorem multiString_step (lib : Packages) [lib.Documented] {g : List Item} (hg : OneChar t g)
    (hopen : ¬ quotes true <+: text g ++ t) (h : At src pos end_ (text g ++ t))
    (row col sr sc : ℕ) {initialPos : ℕ} (hle : initialPos ≤ pos) (revChunks : List Chunk) :
    ∃ initialPos' revChunks', initialPos' ≤ pos + (text g).length ∧
      pending lib src initialPos' (pos + (text g).length) revChunks'
        = pending lib src initialPos pos revChunks ++ written .multi g ∧
      multiString isAlpha lib src pos end_ row col initialPos sr sc revChunks
        = multiString isAlpha lib src (pos + (text g).length) end_
          (after true (row, col) (text g)).1 (after true (row, col) (text g)).2
          initialPos' sr sc revChunks' := by
  have hextend := pending_extend lib h hle revChunks
  cases hg with
  | @unit u hback hnot =>
    have hpair : ¬ (IsHigh u.toNat ∧ ∃ v ∈ t.head?, IsLow v.toNat) := by
      rintro ⟨hu, v, hv, hlow⟩
      exact hnot hu v hv hlow
    have hat : At src pos end_ (u :: t) := h
    have hstart : ¬ quotes true <+: u :: t := hopen
    rw [multiString_cons isAlpha hat, if_neg hstart, written_unit]
    -- apostrophes, newlines and returns are written escaped, so the chunk is cut there
    by_cases happ : u = 0x27
    · subst happ
      rw [if_pos rfl]
      exact ⟨_, _, le_rfl, pending_addEscape .., rfl⟩
    by_cases hnewline : u = 0x0A
    · subst hnewline
      rw [if_neg happ, if_pos rfl]
      exact ⟨_, _, le_rfl, pending_addEscape .., rfl⟩
    by_cases hreturn : u = 0x0D
    · subst hreturn
      rw [if_neg happ, if_neg hnewline, if_pos rfl]
      exact ⟨_, _, le_rfl, pending_addEscape .., rfl⟩
    · have hplace : after true (row, col) (text [.raw u]) = (row, col + 1) :=
        after_unit hnewline (fun _ => hreturn) _
      rw [if_neg happ, if_neg hnewline, if_neg hreturn, if_neg hback, if_neg hpair, hplace]
      refine ⟨initialPos, revChunks, Nat.le_add_right_of_le hle, ?_, rfl⟩
      rw [hextend]
      simp [Item.written, text, Item.text, happ, hnewline, hreturn]
  | @pair u v hu hv =>
    have hplace : after true (row, col) (text [.raw u, .raw v]) = (row, col + 1) :=
      after_pair hu hv _ _
    have hne := fun (c : UInt16) (hc : c.toNat < 0xD800) => ne_of_high hu hc
    have hat : At src pos end_ (u :: v :: t) := h
    have hstart : ¬ quotes true <+: u :: v :: t := hopen
    rw [multiString_cons isAlpha hat, hplace, if_neg hstart, if_neg (hne 0x27 (by decide)),
      if_neg (hne 0x0A (by decide)), if_neg (hne 0x0D (by decide)), if_neg (hne 0x5C (by decide)),
      if_pos ⟨hu, v, rfl, hv⟩, written_pair _ hu hv]
    exact ⟨initialPos, revChunks, Nat.le_add_right_of_le hle, hextend, rfl⟩
  | @escape c hc =>
    have hplace : after true (row, col) (text [.escape c]) = (row, col + 2) :=
      after_plain (isPlain_escape hc) _ _
    have hat : At src pos end_ (0x5C :: c :: t) := h
    have hstart : ¬ quotes true <+: 0x5C :: c :: t := hopen
    rw [multiString_cons isAlpha hat, hplace, if_neg hstart, if_neg (by decide),
      if_neg (by decide), if_neg (by decide), if_pos rfl, eatEscape_normal isAlpha hc h.tail]
    exact ⟨initialPos, revChunks, Nat.le_add_right_of_le hle, hextend, rfl⟩
  -- a code point is written out anew, so the chunk is cut there too
  | @unicode ds hds =>
    have hplace := after_plain (isPlain_unicode hds) true (row, col)
    rw [text_unicode] at h hopen
    rw [multiString_cons isAlpha h, hplace, length_text_unicode, if_neg hopen, if_neg (by decide),
      if_neg (by decide), if_neg (by decide), if_pos rfl, eatEscape_code isAlpha hds h.tail]
    refine ⟨_, _, le_rfl, ?_, rfl⟩
    rw [pending_addEscape, chunkText_unicode src hds]

/-- At every cursor the string closes, one character of the grammar stands there, or the scanner
    fails. -/
theorem multiString_cases (h : At src pos end_ t) (row col initialPos sr sc : ℕ)
    (revChunks : List Chunk) :
    (∃ t', t = quotes true ++ t') ∨
    (∃ g t', t = text g ++ t' ∧ ¬ quotes true <+: t ∧ OneChar t' g ∧ ∀ i ∈ g, i.Ok .multi) ∨
    ∃ r c x, multiString isAlpha lib src pos end_ row col initialPos sr sc revChunks
      = .srErr r c x := by
  cases t with
  | nil =>
    refine Or.inr (Or.inr ⟨sr, sc, .StringEndless_Multi, ?_⟩)
    rw [multiString.eq_def, if_pos h.le_of_nil]
  | cons u t =>
    by_cases hquote : quotes true <+: u :: t
    · obtain ⟨t', ht⟩ := hquote
      exact Or.inl ⟨t', ht.symm⟩
    refine Or.inr ?_
    rcases next_char isAlpha row col h with ⟨g, t', heq, hg⟩ | ⟨rfl, hbad⟩
    · refine Or.inl ⟨g, t', heq, hquote, hg, ok_of_head hg fun v hv => ?_⟩
      exact ⟨fun hstyle => absurd hstyle (by decide), fun hstyle => absurd hstyle (by decide)⟩
    · refine Or.inr ?_
      rw [multiString_cons isAlpha h, if_neg hquote, if_neg (by decide), if_neg (by decide),
        if_neg (by decide), if_pos rfl]
      rcases hbad with hend | ⟨r, c, x, hproblem⟩
      · rw [hend]
        exact ⟨_, _, _, rfl⟩
      · rw [hproblem]
        exact ⟨_, _, _, rfl⟩

/-- What is open before the closing marks is open before every text after them. -/
theorem open_append (l t : Text) :
    quotes true <+: l ++ (quotes true ++ t) ↔ quotes true <+: l ++ quotes true := by
  rw [← List.append_assoc]
  constructor
  · intro hpre
    refine List.prefix_of_prefix_length_le hpre (List.prefix_append _ t) ?_
    rw [List.length_append]
    exact Nat.le_add_left _ _
  · exact fun hpre => hpre.trans (List.prefix_append _ t)

theorem staysOpen_of_append {g items : List Item} (h : StaysOpen (g ++ items)) :
    StaysOpen items := by
  intro a b heq hne
  exact h (g ++ a) b (by rw [heq, List.append_assoc]) hne

/-- No item of one character starts the closing marks when its first does not. -/
theorem staysOpen_append {g items : List Item} {t' : Text} (hg : OneChar t' g)
    (hopen : ¬ quotes true <+: text (g ++ items) ++ quotes true) (h : StaysOpen items) :
    StaysOpen (g ++ items) := by
  intro a b heq hne
  have hsingle : ∀ i, g = [i] → ¬ quotes true <+: text b ++ quotes true := by
    rintro i rfl
    cases a with
    | nil =>
      obtain rfl : b = [i] ++ items := heq.symm
      exact hopen
    | cons j a => exact h a b (List.cons.inj heq).2 hne
  cases hg with
  | unit hu hnot => exact hsingle _ rfl
  | escape hc => exact hsingle _ rfl
  | unicode hds => exact hsingle _ rfl
  | @pair u v hu hv =>
    rcases a with _ | ⟨i, _ | ⟨j, a⟩⟩
    · obtain rfl : b = [Item.raw u, Item.raw v] ++ items := heq.symm
      exact hopen
    -- from the second half on
    · obtain rfl : b = .raw v :: items := (List.cons.inj heq).2.symm
      rintro ⟨l, hl⟩
      exact ne_of_low hv (by decide) (List.cons.inj hl).1.symm
    · exact h a b (List.cons.inj (List.cons.inj heq).2).2 hne

/-- A string in triple marks is scanned to its closing ones. -/
theorem multiString_reads [lib.Documented] {items : List Item} (hok : ∀ i ∈ items, i.Ok .multi)
    (hopen : StaysOpen items) (h : At src pos end_ (text items ++ (quotes true ++ t)))
    (row col sr sc : ℕ) {initialPos : ℕ} (hle : initialPos ≤ pos) (revChunks : List Chunk) :
    multiString isAlpha lib src pos end_ row col initialPos sr sc revChunks
      = .srOk (pos + (text items).length + 3)
        (after true (row, col) (text items ++ quotes true)).1
        (after true (row, col) (text items ++ quotes true)).2
        (pending lib src initialPos pos revChunks ++ written .multi items) true := by
  induction hn : items.length using Nat.strong_induction_on
    generalizing items pos row col initialPos revChunks with
  | _ n ih =>
    rcases eq_or_ne items [] with rfl | hne
    · have hat : At src pos end_ (0x22 :: 0x22 :: 0x22 :: t) := h
      rw [multiString_cons isAlpha hat, if_pos ⟨t, rfl⟩]
      simp [text, written, after, chars, advance, quotes, IsHigh]
    · obtain ⟨g, items', rfl, hg⟩ := exists_oneChar (t := quotes true ++ t) hne hok
        (by simp [IsLow, quotes])
      have hok' : ∀ i ∈ items', i.Ok .multi := fun i hi => hok i (List.mem_append_right g hi)
      have hstart : ¬ quotes true <+: text g ++ (text items' ++ (quotes true ++ t)) := by
        rw [← List.append_assoc, ← text_append, open_append]
        exact hopen [] _ rfl hne
      rw [text_append, List.append_assoc] at h
      obtain ⟨initialPos', revChunks', hle', hpending, hstep⟩ :=
        multiString_step isAlpha lib hg hstart
        h row col sr sc hle revChunks
      have hlt : items'.length < n := by
        have hpos := List.length_pos_of_ne_nil hg.ne_nil
        rw [← hn, List.length_append]
        omega
      have hplace := (hg.of_head (r := text items' ++ quotes true) (by
        simp [quotes])).after_append true (row, col)
      rw [hstep, ih _ hlt hok' (staysOpen_of_append hopen) h.append _ _ hle' _ rfl, text_append,
        written_append, hpending, List.length_append, List.append_assoc, List.append_assoc, hplace,
        Nat.add_assoc pos]

/-- A multiline string that is read is one of the grammar's, and the value, place and cursor are
    what its characters say. -/
theorem multiString_only [lib.Documented] {p row' col' sr sc : ℕ} {w : Text} {multiline : Bool}
    (h : At src pos end_ t) {row col initialPos : ℕ} (hle : initialPos ≤ pos)
    {revChunks : List Chunk}
    (heq : multiString isAlpha lib src pos end_ row col initialPos sr sc revChunks
      = .srOk p row' col' w multiline) :
    ∃ items t', t = text items ++ (quotes true ++ t') ∧ (∀ i ∈ items, i.Ok .multi) ∧
      StaysOpen items := by
  induction hn : t.length using Nat.strong_induction_on
    generalizing t pos row col initialPos revChunks with
  | _ n ih =>
    rcases multiString_cases isAlpha h row col initialPos sr sc revChunks with
      ⟨t', rfl⟩ | ⟨g, t', rfl, hopen, hg, hok⟩ | ⟨r, c, x, herr⟩
    · refine ⟨[], t', rfl, fun i hi => absurd hi List.not_mem_nil, fun a b hab hne => ?_⟩
      exact absurd (List.append_eq_nil_iff.mp hab.symm).2 hne
    · obtain ⟨initialPos', revChunks', hle', -, hstep⟩ :=
        multiString_step isAlpha lib hg hopen h row col sr sc hle revChunks
      have hlt : t'.length < n := by
        have hpos := List.length_pos_of_ne_nil hg.text_ne_nil
        rw [← hn, List.length_append]
        omega
      obtain ⟨items, t'', rfl, hitems, hstays⟩ := ih _ hlt h.append hle' (hstep.symm.trans heq) rfl
      refine ⟨g ++ items, t'', by rw [text_append, List.append_assoc], fun i hi => ?_, ?_⟩
      · exact (List.mem_append.mp hi).elim (hok i) (hitems i)
      · refine staysOpen_append hg ?_ hstays
        rw [← List.append_assoc, ← text_append, open_append] at hopen
        exact hopen
    · cases herr.symm.trans heq

/-! ## Characters -/

/-- One round of the scanner of characters, branch by branch. -/
theorem chompChar_cons (h : At src pos end_ (u :: t)) (row col numChars : ℕ) (mostRecent : Chunk) :
    chompChar isAlpha src pos end_ row col numChars mostRecent
      = if u = 0x27 then .good (pos + 1) (col + 1) numChars mostRecent
        else if u = 0x0A then .charEndless col
        else if u = 0x22 then
          chompChar isAlpha src (pos + 1) end_ row (col + 1) (numChars + 1) doubleQuote
        else if u = 0x5C then
          match eatEscape isAlpha src (pos + 1) end_ row col with
          | .EscapeNormal =>
            chompChar isAlpha src (pos + 2) end_ row (col + 2) (numChars + 1) (.slice pos 2)
          | .EscapeUnicode delta code =>
            chompChar isAlpha src (pos + delta) end_ row (col + delta) (numChars + 1)
              (.codePoint code)
          | .EscapeProblem r c badEscape => .charEscape r c badEscape
          | .EscapeEndOfFile => .charEndless col
        else
          chompChar isAlpha src
            (pos + if IsHigh u.toNat ∧ ∃ v ∈ t.head?, IsLow v.toNat then 2 else 1) end_ row
            (col + 1) (numChars + 1)
            (.slice pos (if IsHigh u.toNat ∧ ∃ v ∈ t.head?, IsLow v.toNat then 2 else 1)) := by
  have happ := unsafeIndex_eq_iff h (c := 0x27) (by decide)
  have hnewline := unsafeIndex_eq_iff h (c := 0x0A) (by decide)
  have hquote := unsafeIndex_eq_iff h (c := 0x22) (by decide)
  have hback := unsafeIndex_eq_iff h (c := 0x5C) (by decide)
  rw [chompChar.eq_def, if_neg h.lt_of_cons.not_ge]
  dsimp only
  refine if_congr happ rfl (if_congr hnewline rfl (if_congr hquote rfl (if_congr hback ?_ ?_)))
  · cases heq : eatEscape isAlpha src (pos + 1) end_ row col
    all_goals
      split <;> simp_all
  · rw [charWidthAt_eq h]

/-- Over one character the scanner goes on with that character as its most recent chunk. -/
theorem chompChar_step {g : List Item} (hg : OneChar t g) (hok : ∀ i ∈ g, i.Ok .char)
    (h : At src pos end_ (text g ++ t)) (row col numChars : ℕ) (mostRecent : Chunk) :
    ∃ chunk, (∀ (lib : Packages) [lib.Documented], chunkText lib src chunk = written .char g) ∧
      after false (row, col) (text g) = (row, (after false (row, col) (text g)).2) ∧
      chompChar isAlpha src pos end_ row col numChars mostRecent
        = chompChar isAlpha src (pos + (text g).length) end_ row
          (after false (row, col) (text g)).2 (numChars + 1) chunk := by
  have hslice : ∀ lib, chunkText lib src (.slice pos (text g).length) = text g := fun _ => h.take
  cases hg with
  | @unit u hback hnot =>
    obtain ⟨-, -, hchar⟩ := hok _ (List.mem_singleton_self _)
    obtain ⟨happ, hnewline⟩ := hchar rfl
    have hplace : after false (row, col) (text [.raw u]) = (row, col + 1) :=
      after_unit hnewline (fun hh => absurd hh (by decide)) _
    have hpair : ¬ (IsHigh u.toNat ∧ ∃ v ∈ t.head?, IsLow v.toNat) := by
      rintro ⟨hu, v, hv, hlow⟩
      exact hnot hu v hv hlow
    have hat : At src pos end_ (u :: t) := h
    rw [chompChar_cons isAlpha hat, hplace, if_neg happ, if_neg hnewline, written_unit]
    -- a quotation mark is written escaped
    by_cases hquote : u = 0x22
    · subst hquote
      rw [if_pos rfl]
      exact ⟨_, fun _ => rfl, rfl, rfl⟩
    · rw [if_neg hquote, if_neg hback, if_neg hpair]
      refine ⟨_, fun lib => (hslice lib).trans ?_, rfl, rfl⟩
      simp [Item.written, text, Item.text, hquote]
  | @pair u v hu hv =>
    have hplace : after false (row, col) (text [.raw u, .raw v]) = (row, col + 1) :=
      after_pair hu hv _ _
    have hne := fun (c : UInt16) (hc : c.toNat < 0xD800) => ne_of_high hu hc
    have hat : At src pos end_ (u :: v :: t) := h
    rw [chompChar_cons isAlpha hat, hplace, if_neg (hne 0x27 (by decide)),
      if_neg (hne 0x0A (by decide)), if_neg (hne 0x22 (by decide)), if_neg (hne 0x5C (by decide)),
      if_pos ⟨hu, v, rfl, hv⟩, written_pair _ hu hv]
    exact ⟨_, fun lib => hslice lib, rfl, rfl⟩
  | @escape c hc =>
    have hplace : after false (row, col) (text [.escape c]) = (row, col + 2) :=
      after_plain (isPlain_escape hc) _ _
    have hat : At src pos end_ (0x5C :: c :: t) := h
    rw [chompChar_cons isAlpha hat, hplace, if_neg (by decide), if_neg (by decide),
      if_neg (by decide), if_pos rfl, eatEscape_normal isAlpha hc hat.tail]
    exact ⟨_, fun lib => hslice lib, rfl, rfl⟩
  | @unicode ds hds =>
    have hplace := after_plain (isPlain_unicode hds) false (row, col)
    rw [text_unicode] at h
    rw [chompChar_cons isAlpha h, hplace, length_text_unicode, if_neg (by decide),
      if_neg (by decide), if_neg (by decide), if_pos rfl, eatEscape_code isAlpha hds h.tail]
    exact ⟨_, fun lib => chunkText_unicode src hds .char, rfl, rfl⟩

/-- At every cursor the apostrophe closes the literal, one character stands there, or the scanner
    fails. -/
theorem chompChar_cases (h : At src pos end_ t) (row col numChars : ℕ) (mostRecent : Chunk) :
    (∃ t', t = 0x27 :: t') ∨
    (∃ g t', t = text g ++ t' ∧ OneChar t' g ∧ ∀ i ∈ g, i.Ok .char) ∨
    ∀ p c n chunk, chompChar isAlpha src pos end_ row col numChars mostRecent
      ≠ .good p c n chunk := by
  cases t with
  | nil =>
    refine Or.inr (Or.inr fun p c n chunk => ?_)
    rw [chompChar.eq_def, if_pos h.le_of_nil]
    exact CharResult.noConfusion
  | cons u t =>
    by_cases happ : u = 0x27
    · exact Or.inl ⟨t, by rw [happ]⟩
    refine Or.inr ?_
    by_cases hnewline : u = 0x0A
    · refine Or.inr fun p c n chunk => ?_
      rw [chompChar_cons isAlpha h, if_neg happ, if_pos hnewline]
      exact CharResult.noConfusion
    rcases next_char isAlpha row col h with ⟨g, t', heq, hg⟩ | ⟨rfl, hbad⟩
    · refine Or.inl ⟨g, t', heq, hg, ok_of_head hg fun v hv => ?_⟩
      obtain rfl := head_text heq hg.text_ne_nil hv
      exact ⟨fun hstyle => absurd hstyle (by decide), fun _ => ⟨happ, hnewline⟩⟩
    · refine Or.inr fun p c n chunk => ?_
      rw [chompChar_cons isAlpha h, if_neg happ, if_neg hnewline, if_neg (by decide), if_pos rfl]
      rcases hbad with hend | ⟨r, c', x, hproblem⟩
      · rw [hend]
        exact CharResult.noConfusion
      · rw [hproblem]
        exact CharResult.noConfusion

/-- The number of characters grows. -/
theorem chompChar_le {p c n row col numChars : ℕ} {mostRecent chunk : Chunk}
    (heq : chompChar isAlpha src pos end_ row col numChars mostRecent = .good p c n chunk) :
    numChars ≤ n := by
  fun_induction chompChar isAlpha src pos end_ row col numChars mostRecent with
  | case1 => cases heq
  | case2 =>
    cases heq
    exact le_rfl
  | case3 => cases heq
  | case4 _ _ _ _ _ _ _ _ _ ih => exact (Nat.le_succ _).trans (ih heq)
  | case5 _ _ _ _ _ _ _ _ _ _ _ ih => exact (Nat.le_succ _).trans (ih heq)
  | case6 _ _ _ _ _ _ _ _ _ _ _ _ _ ih => exact (Nat.le_succ _).trans (ih heq)
  | case7 => cases heq
  | case8 => cases heq
  | case9 _ _ _ _ _ _ _ _ _ _ _ ih => exact (Nat.le_succ _).trans (ih heq)

/-- A character literal holds exactly one character. -/
theorem isCharacter_iff {items : List Item} :
    IsCharacter items ↔ OneChar (0x27 :: t) items ∧ ∀ i ∈ items, i.Ok .char := by
  constructor
  · rintro ⟨hok, ⟨i, rfl⟩ | ⟨u, v, rfl, hu, hv⟩⟩
    · refine ⟨?_, hok⟩
      have hi := hok i (List.mem_singleton_self i)
      cases i with
      | raw u => exact .unit hi.1 (by simp [IsLow])
      | escape c => exact .escape hi
      | unicode ds => exact .unicode hi
    · exact ⟨.pair hu hv, hok⟩
  · rintro ⟨hg, hok⟩
    refine ⟨hok, ?_⟩
    cases hg with
    | unit hu h => exact Or.inl ⟨_, rfl⟩
    | pair hu hv => exact Or.inr ⟨_, _, rfl, hu, hv⟩
    | escape hc => exact Or.inl ⟨_, rfl⟩
    | unicode hds => exact Or.inl ⟨_, rfl⟩

/-- What is scanned as one character is one character. -/
theorem chompChar_one {p c row col : ℕ} {mostRecent chunk : Chunk} (h : At src pos end_ t)
    (heq : chompChar isAlpha src pos end_ row col 0 mostRecent = .good p c 1 chunk) :
    ∃ items t', t = text items ++ 0x27 :: t' ∧ IsCharacter items := by
  rcases chompChar_cases isAlpha h row col 0 mostRecent with
    ⟨t', rfl⟩ | ⟨g, t', rfl, hg, hok⟩ | hbad
  · rw [chompChar_cons isAlpha h, if_pos rfl] at heq
    cases heq
  · obtain ⟨chunk', -, -, hstep⟩ := chompChar_step isAlpha hg hok h row col 0 mostRecent
    rw [hstep] at heq
    rcases chompChar_cases isAlpha h.append row _ (0 + 1) chunk' with
      ⟨t'', rfl⟩ | ⟨g', t'', rfl, hg', hok'⟩ | hbad
    · exact ⟨g, t'', rfl, isCharacter_iff.mpr ⟨hg, hok⟩⟩
    · obtain ⟨_, -, -, hstep'⟩ := chompChar_step isAlpha hg' hok' h.append row _ (0 + 1) chunk'
      rw [hstep'] at heq
      exact absurd (chompChar_le isAlpha heq) (by decide)
    · exact absurd heq (hbad _ _ _ _)
  · exact absurd heq (hbad _ _ _ _)

/-! ## The parsers -/

/-- The state past a literal. -/
def past (st : State) (multi : Bool) (l : Text) : State :=
  { st with
    pos := st.pos + l.length
    row := (after multi (st.row, st.col) l).1
    col := (after multi (st.row, st.col) l).2 }

variable {x : Type}

theorem after_quote (multi : Bool) (place : ℕ × ℕ) (l : Text) :
    after multi place (0x22 :: l) = after multi (place.1, place.2 + 1) l := by
  have hnot : ¬ IsHigh (0x22 : UInt16).toNat := by decide
  have hadvance : advance multi place (0x22 : UInt16).toNat = (place.1, place.2 + 1) := by
    simp [advance]
  rw [after, chars_cons fun hu => absurd hu hnot, List.foldl_cons, hadvance]
  rfl

theorem after_apostrophe (multi : Bool) (place : ℕ × ℕ) (l : Text) :
    after multi place (0x27 :: l) = after multi (place.1, place.2 + 1) l := by
  have hnot : ¬ IsHigh (0x27 : UInt16).toNat := by decide
  have hadvance : advance multi place (0x27 : UInt16).toNat = (place.1, place.2 + 1) := by
    simp [advance]
  rw [after, chars_cons fun hu => absurd hu hnot, List.foldl_cons, hadvance]
  rfl

/-- Both kinds of string of the grammar are read, to the value they stand for. -/
theorem string_reads [lib.Documented] {st : State} (inside : st.end_ ≤ st.src.length) {multi : Bool}
    {items : List Item} (hstring : IsString multi items t)
    (hrest : st.rest = quotes multi ++ (text items ++ (quotes multi ++ t)))
    (toExpectation : ℕ → ℕ → x) (toError : StringProblem → ℕ → ℕ → x) :
    string isAlpha lib toExpectation toError st
      = .cok (written (.ofMulti multi) items, multi)
        (past st multi (quotes multi ++ (text items ++ quotes multi))) := by
  have h : At st.src st.pos st.end_ (quotes multi ++ (text items ++ (quotes multi ++ t))) :=
    ⟨inside, hrest⟩
  obtain ⟨hok, hends⟩ := hstring
  cases multi with
  | true =>
    have hat : At st.src st.pos st.end_
      (0x22 :: 0x22 :: 0x22 :: (text items ++ (quotes true ++ t))) := h
    have hbody : At st.src (st.pos + 3) st.end_ (text items ++ (quotes true ++ t)) :=
      hat.tail.tail.tail
    have hplace : after true (st.row, st.col) (quotes true ++ (text items ++ quotes true))
        = after true (st.row, st.col + 3) (text items ++ quotes true) := by
      refine (after_quote ..).trans ((after_quote ..).trans (after_quote ..))
    have hlen : (quotes true ++ (text items ++ quotes true)).length
        = 3 + (text items).length + 3 := by
      simp [quotes]
      omega
    rw [string, stringResult, if_pos ((isDoubleQuote_iff hat).mpr rfl)]
    dsimp only
    rw [if_pos ((isDoubleQuote_iff hat.tail).mpr rfl),
      if_pos ((isDoubleQuote_iff hat.tail.tail).mpr rfl),
      multiString_reads isAlpha hok hends hbody st.row (st.col + 3) st.row st.col le_rfl [],
      past, hplace, hlen, pending_self, Nat.add_assoc st.pos, Nat.add_assoc st.pos]
    rfl
  | false =>
    have hat : At st.src st.pos st.end_ (0x22 :: (text items ++ 0x22 :: t)) := h
    have hplace : after false (st.row, st.col) (quotes false ++ (text items ++ quotes false))
        = after false (st.row, st.col + 1) (text items ++ [0x22]) := after_quote ..
    have hlen : (quotes false ++ (text items ++ quotes false)).length
        = 1 + (text items).length + 1 := by
      simp [quotes]
      omega
    rw [string, stringResult, if_pos ((isDoubleQuote_iff hat).mpr rfl)]
    dsimp only
    rcases eq_or_ne items [] with rfl | hne
    -- the second mark ends an empty string
    · have htail : At st.src (st.pos + 1) st.end_ (0x22 :: t) := hat.tail
      rw [if_pos ((isDoubleQuote_iff htail).mpr rfl),
        if_neg fun hthird => hends rfl ((isDoubleQuote_iff htail.tail).mp hthird)]
      rfl
    · have hfirst : (text items ++ 0x22 :: t).head? ≠ some 0x22 := by
        cases items with
        | nil => exact absurd rfl hne
        | cons i items =>
          have hi := hok i (List.mem_cons_self ..)
          cases i with
          | raw u => exact fun hhead => (hi.2.1 rfl).1 (Option.some.inj hhead)
          | escape c => exact fun hhead => absurd (Option.some.inj hhead) (by decide)
          | unicode ds => exact fun hhead => absurd (Option.some.inj hhead) (by decide)
      rw [if_neg fun hsecond => hfirst ((isDoubleQuote_iff hat.tail).mp hsecond),
        singleString_reads isAlpha hok hat.tail st.row (st.col + 1) le_rfl [], past, hplace, hlen,
        pending_self, Nat.add_assoc st.pos, Nat.add_assoc st.pos]
      rfl

/-- Nothing else is a string. -/
theorem string_only [lib.Documented] {st s' : State} {v : Text × Bool}
    (inside : st.end_ ≤ st.src.length)
    {toExpectation : ℕ → ℕ → x} {toError : StringProblem → ℕ → ℕ → x}
    (heq : (string isAlpha lib toExpectation toError st).Gives v s') :
    ∃ multi items t, IsString multi items t ∧
      st.rest = quotes multi ++ (text items ++ (quotes multi ++ t)) := by
  rw [string] at heq
  by_cases hquote : isDoubleQuote st.src st.pos st.end_
  case neg =>
    rw [if_neg hquote] at heq
    rcases heq with heq | heq <;> cases heq
  have h : At st.src st.pos st.end_ st.rest := ⟨inside, rfl⟩
  obtain ⟨t, hrest⟩ := List.head?_eq_some_iff.mp ((isDoubleQuote_iff h).mp hquote)
  rw [hrest] at h ⊢
  rw [if_pos hquote] at heq
  cases hresult : stringResult isAlpha lib st with
  | srErr r c problem =>
    rw [hresult] at heq
    rcases heq with heq | heq <;> cases heq
  | srOk p row col w multiline =>
    rw [stringResult] at hresult
    dsimp only at hresult
    by_cases hsecond : isDoubleQuote st.src (st.pos + 1) st.end_
    · obtain ⟨t, rfl⟩ := List.head?_eq_some_iff.mp ((isDoubleQuote_iff h.tail).mp hsecond)
      rw [if_pos hsecond] at hresult
      by_cases hthird : isDoubleQuote st.src (st.pos + 2) st.end_
      · obtain ⟨t, rfl⟩ := List.head?_eq_some_iff.mp ((isDoubleQuote_iff h.tail.tail).mp hthird)
        rw [if_pos hthird] at hresult
        have hbody : At st.src (st.pos + 3) st.end_ t := h.tail.tail.tail
        obtain ⟨items, t', rfl, hok, hopen⟩ := multiString_only isAlpha hbody le_rfl hresult
        exact ⟨true, items, t', ⟨hok, hopen⟩, rfl⟩
      · refine ⟨false, [], t, ⟨fun i hi => absurd hi List.not_mem_nil, fun _ => ?_⟩, rfl⟩
        exact fun hhead => hthird ((isDoubleQuote_iff h.tail.tail).mpr hhead)
    · rw [if_neg hsecond] at hresult
      obtain ⟨items, t', rfl, hok⟩ := singleString_only isAlpha h.tail le_rfl hresult
      refine ⟨false, items, t', ⟨hok, ?_⟩, rfl⟩
      rintro rfl
      exact absurd ((isDoubleQuote_iff h.tail).mpr rfl) hsecond

theorem unsafeIndex_apostrophe (h : At src pos end_ (0x27 :: t)) :
    ¬ (end_ ≤ pos ∨ unsafeIndex src pos ≠ apostrophe) := by
  have hword := (unsafeIndex_eq_iff h (c := 0x27) (by decide)).mpr rfl
  exact not_or.mpr ⟨h.lt_of_cons.not_ge, fun hne => hne hword⟩

/-- A character literal of the grammar is read, to the value it stands for. -/
theorem character_reads [lib.Documented] {st : State} (inside : st.end_ ≤ st.src.length)
    {items : List Item}
    (hitems : IsCharacter items) (hrest : st.rest = 0x27 :: (text items ++ 0x27 :: t))
    (toExpectation : ℕ → ℕ → x) (toError : CharProblem → ℕ → ℕ → x) :
    character isAlpha lib toExpectation toError st
      = .cok (written .char items) (past st false (0x27 :: (text items ++ [0x27]))) := by
  have h : At st.src st.pos st.end_ (0x27 :: (text items ++ 0x27 :: t)) := ⟨inside, hrest⟩
  obtain ⟨hg, hok⟩ := isCharacter_iff.mp hitems
  obtain ⟨chunk, hchunk, hrow, hstep⟩ := chompChar_step isAlpha hg hok h.tail st.row (st.col + 1) 0
    placeholder
  have hplace : after false (st.row, st.col) (0x27 :: (text items ++ [0x27]))
      = (st.row, (after false (st.row, st.col + 1) (text items)).2 + 1) := by
    rw [after_apostrophe, (hg.of_head (r := [0x27]) rfl).after_append, hrow]
    exact after_apostrophe false _ []
  have hlen : (0x27 :: (text items ++ [0x27])).length = 1 + (text items).length + 1 := by
    simp
    omega
  rw [character, if_neg (unsafeIndex_apostrophe h), hstep,
    chompChar_cons isAlpha h.tail.append, if_pos rfl, past, hplace, hlen]
  dsimp only
  rw [if_neg (by decide), fromChunks_eq, List.flatMap_singleton, hchunk, Nat.add_assoc st.pos,
    Nat.add_assoc st.pos]

/-- A character literal that is read is one of the grammar's. -/
theorem character_only {st s' : State} {v : Text} (inside : st.end_ ≤ st.src.length)
    {toExpectation : ℕ → ℕ → x} {toError : CharProblem → ℕ → ℕ → x}
    (heq : (character isAlpha lib toExpectation toError st).Gives v s') :
    ∃ items t, IsCharacter items ∧ st.rest = 0x27 :: (text items ++ 0x27 :: t) := by
  have h : At st.src st.pos st.end_ st.rest := ⟨inside, rfl⟩
  rw [character] at heq
  split_ifs at heq with hstart
  · rcases heq with heq | heq <;> cases heq
  obtain ⟨hpos, hword⟩ := not_or.mp hstart
  cases hrest : st.rest with
  | nil =>
    rw [hrest] at h
    exact absurd h.le_of_nil hpos
  | cons u t =>
    rw [hrest] at h
    obtain rfl := (unsafeIndex_eq_iff h (c := 0x27) (by decide)).mp (not_not.mp hword)
    split at heq
    · next p c n chunk hresult =>
      by_cases hone : n = 1
      · subst hone
        obtain ⟨items, t', rfl, hitems⟩ := chompChar_one isAlpha h.tail hresult
        exact ⟨items, t', hitems, rfl⟩
      · rw [if_pos hone] at heq
        rcases heq with heq | heq <;> cases heq
    · rcases heq with heq | heq <;> cases heq
    · rcases heq with heq | heq <;> cases heq

/-! ## Literals keep their value -/

/-- The parsers accept exactly the literals of the grammar, end past the closing quotes and give a
    text that is read back as the code points of the literal; keys tell literals apart exactly when
    they denote different units. -/
theorem literals_keep_value (lib : Packages) [lib.Documented] :
    (∀ (st s' : State) (v : Text × Bool) (toExpectation : ℕ → ℕ → x)
      (toError : StringProblem → ℕ → ℕ → x), st.end_ ≤ st.src.length →
      ((string isAlpha lib toExpectation toError st).Gives v s' ↔
        ∃ multi items t, IsString multi items t ∧
          st.rest = quotes multi ++ (text items ++ (quotes multi ++ t)) ∧
          v = (written (.ofMulti multi) items, multi) ∧
          s' = past st multi (quotes multi ++ (text items ++ quotes multi)))) ∧
    (∀ (st s' : State) (v : Text) (toExpectation : ℕ → ℕ → x)
      (toError : CharProblem → ℕ → ℕ → x), st.end_ ≤ st.src.length →
      ((character isAlpha lib toExpectation toError st).Gives v s' ↔
        ∃ items t, IsCharacter items ∧ st.rest = 0x27 :: (text items ++ 0x27 :: t) ∧
          v = written .char items ∧ s' = past st false (0x27 :: (text items ++ [0x27])))) ∧
    (∀ (style : Style) (items : List Item), (∀ i ∈ items, i.Ok style) →
      codePoints (written style items) = (chars (units items)).map (fun c : ℕ => (c : ℤ))) ∧
    ∀ (style style' : Style) (items items' : List Item), (∀ i ∈ items, i.Ok style) →
      (∀ i ∈ items', i.Ok style') →
      (valueKey (written style items) = valueKey (written style' items')
        ↔ units items = units items') := by
  refine ⟨fun st s' v toExpectation toError inside => ⟨fun heq => ?_, ?_⟩,
    fun st s' v toExpectation toError inside => ⟨fun heq => ?_, ?_⟩,
    fun style items hok => codePoints_written hok,
    fun style style' items items' hok hok' => valueKey_eq_iff hok hok'⟩
  · obtain ⟨multi, items, t, hstring, hrest⟩ := string_only isAlpha inside heq
    rw [string_reads isAlpha inside hstring hrest] at heq
    rcases heq with heq | heq
    · cases heq
      exact ⟨multi, items, t, hstring, hrest, rfl, rfl⟩
    · cases heq
  · rintro ⟨multi, items, t, hstring, hrest, rfl, rfl⟩
    exact Or.inl (string_reads isAlpha inside hstring hrest ..)
  · obtain ⟨items, t, hitems, hrest⟩ := character_only isAlpha inside heq
    rw [character_reads isAlpha inside hitems hrest] at heq
    rcases heq with heq | heq
    · cases heq
      exact ⟨items, t, hitems, hrest, rfl, rfl⟩
    · cases heq
  · rintro ⟨items, t, hitems, hrest, rfl, rfl⟩
    exact Or.inl (character_reads isAlpha inside hitems hrest ..)

/-- Hexadecimal digits and the division that rounds down. -/
def usual : Packages where
  hexToString n :=
    (if n < 0 then [0x2D] else []) ++
      (Nat.toDigits 16 n.natAbs).map fun c => UInt16.ofNat c.toNat
  divMod n d := (n.fdiv d, n.fmod d)

instance : usual.Documented where
  hexToString_eq := by
    intro n
    have hn : ¬ (n : ℤ) < 0 := by omega
    simp only [usual, if_neg hn, Int.natAbs_natCast, List.nil_append]
  divMod_eq := by
    intro n d _
    have hd : (0 : ℤ) ≤ d := Int.natCast_nonneg d
    simp only [usual, Int.fdiv_eq_ediv_of_nonneg _ hd, Int.fmod_eq_emod_of_nonneg _ hd,
      Int.natCast_ediv, Int.natCast_emod]

/-- An apostrophe, a line break, a mark and a code point above `FFFF`. -/
def sampleItems : List Item :=
  [.raw 0x27, .raw 0x0A, .raw 0x22, .raw 0x61, .unicode [0x31, 0x66, 0x36, 0x30, 0x30]]

/-- The same, as a string of one line has it. -/
def sampleLine : List Item :=
  [.raw 0x27, .escape 0x6E, .escape 0x22, .unicode [0x30, 0x30, 0x36, 0x31], .raw 0xD83D,
    .raw 0xDE00]

/-- What is recorded: `\'\n"a\uD83D\uDE00`. -/
def sampleText : Text :=
  [0x5C, 0x27, 0x5C, 0x6E, 0x22, 0x61, 0x5C, 0x75, 0x44, 0x38, 0x33, 0x44,
    0x5C, 0x75, 0x44, 0x45, 0x30, 0x30]

theorem sampleItems_ok : ∀ i ∈ sampleItems, i.Ok .multi := by
  have hcode : IsCode [0x31, 0x66, 0x36, 0x30, 0x30] :=
    ⟨by decide, by decide, by simp [IsHexDigit, IsDigit], by decide +kernel⟩
  have hraw : ∀ u : UInt16, u ≠ 0x5C → (Item.raw u).Ok .multi := fun u hu =>
    ⟨hu, fun h => Style.noConfusion h, fun h => Style.noConfusion h⟩
  exact List.forall_mem_cons.mpr ⟨hraw _ (by decide), List.forall_mem_cons.mpr
    ⟨hraw _ (by decide), List.forall_mem_cons.mpr ⟨hraw _ (by decide), List.forall_mem_cons.mpr
      ⟨hraw _ (by decide), List.forall_mem_singleton.mpr hcode⟩⟩⟩⟩

theorem sampleLine_ok : ∀ i ∈ sampleLine, i.Ok .single := by
  have hcode : IsCode [0x30, 0x30, 0x36, 0x31] :=
    ⟨by decide, by decide, by simp [IsHexDigit, IsDigit], by decide +kernel⟩
  have hraw : ∀ u : UInt16, u ≠ 0x5C ∧ u ≠ 0x22 ∧ u ≠ 0x0A → (Item.raw u).Ok .single :=
    fun u hu => ⟨hu.1, fun _ => hu.2, fun h => Style.noConfusion h⟩
  exact List.forall_mem_cons.mpr ⟨hraw _ (by decide), List.forall_mem_cons.mpr
    ⟨Or.inl rfl, List.forall_mem_cons.mpr ⟨(by decide : IsEscape 0x22), List.forall_mem_cons.mpr
      ⟨hcode, List.forall_mem_cons.mpr
        ⟨hraw _ (by decide), List.forall_mem_singleton.mpr (hraw _ (by decide))⟩⟩⟩⟩⟩

theorem sampleItems_open : StaysOpen sampleItems := by
  intro a b heq hne
  have hmem : b ∈ sampleItems.tails := (List.mem_tails _ _).mpr ⟨a, heq.symm⟩
  simp only [sampleItems, List.tails, List.mem_cons, List.not_mem_nil, or_false] at hmem
  rcases hmem with rfl | rfl | rfl | rfl | rfl | rfl
  · decide +kernel
  · decide +kernel
  · decide +kernel
  · decide +kernel
  · decide +kernel
  · exact absurd rfl hne

/-- A string in triple marks is read, and has the key of one in single marks. -/
theorem literals_keep_value_sample :
    (string (fun _ => false) usual (fun _ _ => ()) (fun _ _ _ => ())
      (initialState (quotes true ++ (text sampleItems ++ quotes true)))).Gives
        (sampleText, true)
        { initialState (quotes true ++ (text sampleItems ++ quotes true)) with
          pos := 19, row := 2, col := 15 } ∧
      codePoints sampleText = [0x27, 0x0A, 0x22, 0x61, 0x1F600] ∧
      valueKey (written .multi sampleItems) = valueKey (written .single sampleLine) := by
  have hkeep := literals_keep_value (x := Unit) (fun _ => false) usual
  refine ⟨(hkeep.1 _ _ _ _ _ le_rfl).mpr
    ⟨true, sampleItems, [], ⟨sampleItems_ok, sampleItems_open⟩, rfl, by decide +kernel, rfl⟩,
    ?_, ?_⟩
  · exact (congrArg codePoints (by decide +kernel)).trans
      (hkeep.2.2.1 .multi sampleItems sampleItems_ok)
  · exact (hkeep.2.2.2 .multi .single _ _ sampleItems_ok sampleLine_ok).mpr rfl

/-- A carriage return in triple marks does not move the column, so the column is not what counting
    the characters gives. -/
theorem string_carriageReturn :
    ¬ ∀ (st s' : State) (v : Text × Bool), st.end_ ≤ st.src.length →
      (string (fun _ => false) usual (fun _ _ => ()) (fun _ _ _ => ()) st).Gives v s' →
      ∃ l, l <+: st.rest ∧ s'.pos = st.pos + l.length ∧
        (s'.row, s'.col) = after false (st.row, st.col) l := by
  intro hcount
  have hopen : StaysOpen [.raw 0x0D] := by
    rintro (_ | ⟨i, a⟩) b heq hne
    · obtain rfl : b = [.raw 0x0D] := heq.symm
      decide
    · obtain ⟨-, rfl⟩ := List.append_eq_nil_iff.mp (List.cons.inj heq).2.symm
      exact absurd rfl hne
  have hok : ∀ i ∈ [Item.raw 0x0D], i.Ok (.ofMulti true) := by
    intro i hi
    obtain rfl := List.mem_singleton.mp hi
    simp [Item.Ok, Style.ofMulti]
  have hstring : IsString true [.raw 0x0D] [] := ⟨hok, hopen⟩
  have hrest : (initialState (quotes true ++ 0x0D :: quotes true)).rest
      = quotes true ++ (text [.raw 0x0D] ++ (quotes true ++ [])) := rfl
  have hread : string (fun _ => false) usual (fun _ _ => ()) (fun _ _ _ => ()) _ = _ :=
    string_reads _ le_rfl hstring hrest _ _
  obtain ⟨l, ⟨t, hl⟩, hpos, hplace⟩ := hcount _ _ _ le_rfl (Or.inl hread)
  have hlen := congrArg List.length hl
  have hseven : (initialState (quotes true ++ 0x0D :: quotes true)).rest.length = 7 := rfl
  have hpos' : 0 + 7 = 0 + l.length := hpos
  rw [List.length_append, hseven] at hlen
  obtain rfl : t = [] := List.eq_nil_of_length_eq_zero (by omega)
  rw [List.append_nil] at hl
  subst hl
  exact absurd hplace (by decide)

end

end ParseString

import EcoCompiler.Json
import EcoCompiler.JsonGrammar
import EcoCompiler.ParseStringProofs

/-! # The tokens of JSON are read exactly

    * `Within`, `Takes` — a later state of a text, and what a parser takes off a text;
    * `spaces_takes`, `pString_takes`, `pInt_takes`, `keyword_takes` — a token is read;
    * `pString_gives`, `pInt_gives`, `keyword_gives` — and nothing else is. -/

namespace Json

open Primitives ParseString ParseSpace JsonGrammar
open ParseNumber (At isDecimalDigit isDecimalDigit_iff charAtPos_cases)

section

variable {x y a b : Type} {s s' s'' : State} {r r' : Text}

/-! ## States of a text -/

/-- The position is at most the end, and the end lies inside the source. -/
structure Inside (s : State) : Prop where
  le : s.pos ≤ s.end_
  inside : s.end_ ≤ s.src.length

/-- `s'` is a place in the text of `s`. -/
structure Within (s s' : State) : Prop where
  src : s'.src = s.src
  end_ : s'.end_ = s.end_
  le : s'.pos ≤ s'.end_

theorem Inside.at (h : Inside s) : At s.src s.pos s.end_ s.rest := ⟨h.inside, rfl⟩

/-- What is left is as long as the distance to the end. -/
theorem Inside.length (h : Inside s) : s.rest.length = s.end_ - s.pos := h.at.length h.le

/-- A place in a sound text is sound. -/
theorem Within.inside (h : Within s s') (hs : Inside s) : Inside s' :=
  ⟨h.le, by rw [h.end_, h.src]; exact hs.inside⟩

theorem Within.trans (h : Within s s') (h' : Within s' s'') : Within s s'' :=
  ⟨h'.src.trans h.src, h'.end_.trans h.end_, h'.le⟩

theorem Inside.within (h : Inside s) : Within s s := ⟨rfl, rfl, h.le⟩

/-- The state at a later place. -/
theorem within_of_at {pos : ℕ} (row col : ℕ) (h : At s.src pos s.end_ r) (hle : pos ≤ s.end_) :
    Within s { s with pos := pos, row := row, col := col } ∧
      State.rest { s with pos := pos, row := row, col := col } = r :=
  ⟨⟨rfl, rfl, hle⟩, h.2⟩

/-- The parser reads up to where `r` is left, and gives `v`. -/
def Takes (p : Parser x a) (s : State) (v : a) (r : Text) : Prop :=
  ∃ s', (p s).Gives v s' ∧ Within s s' ∧ s'.rest = r

/-- Two parsers one after the other read both parts. -/
theorem Takes.andThen {p : Parser x a} {f : a → Parser x b} {u : a} {v : b} (hp : Takes p s u r)
    (hf : ∀ s', Within s s' → s'.rest = r → Takes (f u) s' v r') :
    Takes (Primitives.andThen f p) s v r' := by
  obtain ⟨s₁, hgives, hwithin, hrest⟩ := hp
  obtain ⟨s₂, hgives', hwithin', hrest'⟩ := hf s₁ hwithin hrest
  exact ⟨s₂, gives_andThen hgives hgives', hwithin.trans hwithin', hrest'⟩

/-- Mapping changes what is given and not what is read. -/
theorem Takes.map {p : Parser x a} {f : a → b} {u : a} (hp : Takes p s u r) :
    Takes (Primitives.map f p) s (f u) r := by
  obtain ⟨s', hgives, hwithin, hrest⟩ := hp
  exact ⟨s', gives_map hgives, hwithin, hrest⟩

/-- The first alternative that does not fail empty decides. -/
theorem oneOf_cons (toError : ℕ → ℕ → x) (p : Parser x a) (ps : List (Parser x a)) (s : State) :
    (∃ row col e, p s = .eerr row col e) ∧ oneOf toError (p :: ps) s = oneOf toError ps s ∨
      (∀ row col e, p s ≠ .eerr row col e) ∧ oneOf toError (p :: ps) s = p s := by
  rw [oneOf, oneOfHelp]
  cases hp : p s with
  | eerr row col e => exact Or.inl ⟨⟨row, col, e, rfl⟩, rfl⟩
  | cok v t => exact Or.inr ⟨by simp, rfl⟩
  | eok v t => exact Or.inr ⟨by simp, rfl⟩
  | cerr row col e => exact Or.inr ⟨by simp, rfl⟩

/-- The first parser that reads decides. -/
theorem Takes.oneOf {e : ℕ → ℕ → x} {p : Parser x a} {l : List (Parser x a)} {v : a}
    (hp : Takes p s v r) : Takes (Primitives.oneOf e (p :: l)) s v r := by
  obtain ⟨s', hgives, hwithin, hrest⟩ := hp
  refine ⟨s', ?_, hwithin, hrest⟩
  rcases oneOf_cons e p l s with ⟨⟨row, col, t, heq⟩, -⟩ | ⟨-, heq⟩
  · rw [heq] at hgives
    exact absurd hgives not_gives_eerr
  · rw [heq]
    exact hgives

/-- An alternative that fails empty is passed over. -/
theorem oneOf_skip {toError : ℕ → ℕ → x} {p : Parser x a} {ps : List (Parser x a)} {row col : ℕ}
    {e : ℕ → ℕ → x} (hp : p s = .eerr row col e) :
    oneOf toError (p :: ps) s = oneOf toError ps s := by
  rcases oneOf_cons toError p ps s with ⟨-, heq⟩ | ⟨hne, -⟩
  · exact heq
  · exact absurd hp (hne row col e)

theorem oneOf_nil {toError : ℕ → ℕ → x} :
    oneOf toError ([] : List (Parser x a)) s = .eerr s.row s.col toError := rfl

/-- What is given is what an alternative gives. -/
theorem oneOf_gives {toError : ℕ → ℕ → x} {ps : List (Parser x a)} {v : a}
    (h : (oneOf toError ps s).Gives v s') : ∃ p ∈ ps, (p s).Gives v s' := by
  induction ps with
  | nil => exact absurd h not_gives_eerr
  | cons p ps ih =>
    rcases oneOf_cons toError p ps s with ⟨-, heq⟩ | ⟨-, heq⟩
    · rw [heq] at h
      obtain ⟨q, hq, hgives⟩ := ih h
      exact ⟨q, List.mem_cons_of_mem p hq, hgives⟩
    · rw [heq] at h
      exact ⟨p, List.mem_cons_self .., h⟩

/-- A failure before anything is read stays one in a sequence. -/
theorem andThen_eerr {p : Parser x a} {f : a → Parser x b} {row col : ℕ} {e : ℕ → ℕ → x}
    (hp : p s = .eerr row col e) : Primitives.andThen f p s = .eerr row col e := by
  rw [Primitives.andThen, hp]

theorem map_eerr {p : Parser x a} {f : a → b} {row col : ℕ} {e : ℕ → ℕ → x}
    (hp : p s = .eerr row col e) : Primitives.map f p s = .eerr row col e := by
  rw [Primitives.map, hp]

/-- A location is put around what is given. -/
theorem Takes.addLocation {p : Parser x a} {v : a} (hp : Takes p s v r) :
    ∃ located : Located a, Takes (Primitives.addLocation p) s located r ∧ located.value = v := by
  obtain ⟨s', hgives, hwithin, hrest⟩ := hp
  refine ⟨⟨⟨⟨s.row, s.col⟩, ⟨s'.row, s'.col⟩⟩, v⟩, ⟨s', ?_, hwithin, hrest⟩, rfl⟩
  rw [Primitives.addLocation]
  rcases hgives with heq | heq
  · rw [heq]
    exact Or.inl rfl
  · rw [heq]
    exact Or.inr rfl

/-- Inside a location stands what the parser gives. -/
theorem addLocation_gives {p : Parser x a} {located : Located a}
    (h : (addLocation p s).Gives located s') : (p s).Gives located.value s' := by
  rw [addLocation] at h
  cases hp : p s with
  | cok v t =>
    rw [hp] at h
    obtain ⟨rfl, rfl⟩ := gives_inj h (Or.inl rfl)
    exact Or.inl rfl
  | eok v t =>
    rw [hp] at h
    obtain ⟨rfl, rfl⟩ := gives_inj h (Or.inr rfl)
    exact Or.inr rfl
  | cerr row col e =>
    rw [hp] at h
    exact absurd h not_gives_cerr
  | eerr row col e =>
    rw [hp] at h
    exact absurd h not_gives_eerr

/-! ## One unit -/

variable {src t : Text} {pos end_ : ℕ} {u c : UInt16}

/-- The test at the cursor asks for the first unit of what is left. -/
theorem next_iff (hs : Inside s) (hc : c.toNat < 0xD800) :
    (s.pos < s.end_ ∧ unsafeIndex s.src s.pos = c.toNat) ↔ s.rest.head? = some c := by
  have hat := hs.at
  cases hrest : s.rest with
  | nil =>
    rw [hrest] at hat
    exact iff_of_false (fun h => absurd h.1 hat.le_of_nil.not_gt) (by simp)
  | cons u t =>
    rw [hrest] at hat
    rw [unsafeIndex_eq_iff hat hc, List.head?_cons, Option.some.injEq]
    exact and_iff_right hat.lt_of_cons

/-- A one character word reads that character. -/
theorem word1_takes (word : Char) {e : ℕ → ℕ → x} (hs : Inside s) (hc : c.toNat < 0xD800)
    (hword : c.toNat = word.toNat) (h : s.rest = c :: r) : Takes (word1 word e) s () r := by
  have hnext := (next_iff hs hc).mpr (by rw [h]; rfl)
  have hat := hs.at
  rw [h] at hat
  obtain ⟨hwithin, hrest⟩ := within_of_at s.row (s.col + 1) hat.tail hat.lt_of_cons
  refine ⟨_, Or.inl ?_, hwithin, hrest⟩
  rw [word1, if_pos (hword ▸ hnext)]

/-- Elsewhere it fails with nothing read. -/
theorem word1_eerr {word : Char} {e : ℕ → ℕ → x} (hs : Inside s) (hc : c.toNat < 0xD800)
    (hword : c.toNat = word.toNat) (h : s.rest.head? ≠ some c) :
    word1 word e s = .eerr s.row s.col e := by
  rw [word1, if_neg]
  rw [← hword]
  exact fun hnext => h ((next_iff hs hc).mp hnext)

/-- Where it succeeds the character was there. -/
theorem word1_gives {word : Char} {e : ℕ → ℕ → x} (hs : Inside s) (hc : c.toNat < 0xD800)
    (hword : c.toNat = word.toNat) (h : (word1 word e s).Gives () s') :
    Within s s' ∧ s.rest = c :: s'.rest := by
  by_cases hhead : s.rest.head? = some c
  · obtain ⟨r, hr⟩ := List.head?_eq_some_iff.mp hhead
    obtain ⟨s₁, hgives, hwithin, hrest⟩ := word1_takes word (e := e) hs hc hword hr
    obtain ⟨-, rfl⟩ := gives_inj h hgives
    exact ⟨hwithin, by rw [hrest, hr]⟩
  · rw [word1_eerr hs hc hword hhead] at h
    exact absurd h not_gives_eerr

/-! ## Spaces -/

/-- The loop passes over all the blanks and stops at the first other unit. -/
theorem eatSpaces_reads (h : At src pos end_ t) (hle : pos ≤ end_) (row col : ℕ) :
    ∃ pos' row' col' r, eatSpaces src pos end_ row col = (pos', row', col') ∧
      At src pos' end_ r ∧ pos' ≤ end_ ∧ Ws t r ∧ NoWs r := by
  induction t generalizing pos row col with
  | nil =>
    rw [eatSpaces, if_pos h.le_of_nil]
    exact ⟨_, _, _, [], rfl, h, hle, .nil [], by simp [NoWs]⟩
  | cons u t ih =>
    have hiff := fun c hc => unsafeIndex_eq_iff h (c := c) hc
    have hlt := h.lt_of_cons
    have hskip : ∀ row col, IsWs u → ∃ pos' row' col' r,
        eatSpaces src (pos + 1) end_ row col = (pos', row', col') ∧
          At src pos' end_ r ∧ pos' ≤ end_ ∧ Ws (u :: t) r ∧ NoWs r := by
      intro row col hu
      obtain ⟨pos', row', col', r, heq, hat, hle', hws, hno⟩ := ih h.tail hlt row col
      exact ⟨pos', row', col', r, heq, hat, hle', .cons hu hws, hno⟩
    rw [eatSpaces, if_neg hlt.not_ge]
    dsimp only
    split_ifs with h₁ h₂ h₃ h₄
    · exact hskip _ _ (Or.inl ((hiff 0x20 (by decide)).mp h₁))
    · exact hskip _ _ (Or.inr (Or.inl ((hiff 0x09 (by decide)).mp h₂)))
    · exact hskip _ _ (Or.inr (Or.inr (Or.inl ((hiff 0x0A (by decide)).mp h₃))))
    · exact hskip _ _ (Or.inr (Or.inr (Or.inr ((hiff 0x0D (by decide)).mp h₄))))
    · refine ⟨_, _, _, u :: t, rfl, h, hle, .nil _, noWs_cons ?_⟩
      rintro (rfl | rfl | rfl | rfl)
      · exact h₁ ((hiff 0x20 (by decide)).mpr rfl)
      · exact h₂ ((hiff 0x09 (by decide)).mpr rfl)
      · exact h₃ ((hiff 0x0A (by decide)).mpr rfl)
      · exact h₄ ((hiff 0x0D (by decide)).mpr rfl)

/-- All whitespace is read. -/
theorem spaces_reads (hs : Inside s) : ∃ s', (spaces s).Gives () s' ∧ Within s s' ∧
    Ws s.rest s'.rest ∧ NoWs s'.rest := by
  obtain ⟨pos', row', col', r, heq, hat, hle, hws, hno⟩ := eatSpaces_reads hs.at hs.le s.row s.col
  rw [spaces, heq]
  dsimp only
  by_cases hpos : s.pos = pos'
  · rw [if_pos hpos]
    subst hpos
    have hrest : s.rest = r := hat.2
    exact ⟨s, Or.inr rfl, hs.within, by rw [hrest] at hws ⊢; exact hws, by rw [hrest]; exact hno⟩
  · rw [if_neg hpos]
    obtain ⟨hwithin, hrest⟩ := within_of_at row' col' hat hle
    exact ⟨_, Or.inl rfl, hwithin, by rw [hrest]; exact hws, by rw [hrest]; exact hno⟩

/-- Blanks are read up to the first unit that is none. -/
theorem spaces_takes (hs : Inside s) (h : Ws s.rest r) (hr : NoWs r) : Takes spaces s () r := by
  obtain ⟨s', hgives, hwithin, hws, hno⟩ := spaces_reads hs
  exact ⟨s', hgives, hwithin, hws.unique h hno hr⟩

/-- Where blanks were read none is left at the front. -/
theorem spaces_gives (hs : Inside s) (h : (spaces s).Gives () s') :
    Within s s' ∧ Ws s.rest s'.rest ∧ NoWs s'.rest := by
  obtain ⟨s₁, hgives, hreads⟩ := spaces_reads hs
  obtain ⟨-, rfl⟩ := gives_inj h hgives
  exact hreads

/-! ## Strings -/

/-- A unit of a string that stands for itself is read with the rest of its character. -/
theorem pStringHelp_plain (h : At src pos end_ (u :: t)) (hu : IsPlain u) (row col : ℕ) :
    pStringHelp src pos end_ row col
      = pStringHelp src
          (pos + if IsHigh u.toNat ∧ ∃ v ∈ t.head?, IsLow v.toNat then 2 else 1) end_ row
          (col + 1) := by
  obtain ⟨hle, hquote, hback⟩ := hu
  have hquote : unsafeIndex src pos ≠ 0x22 :=
    fun hh => hquote ((unsafeIndex_eq_iff h (c := 0x22) (by decide)).mp hh)
  have hback : unsafeIndex src pos ≠ 0x5C :=
    fun hh => hback ((unsafeIndex_eq_iff h (c := 0x5C) (by decide)).mp hh)
  have hcontrol : ¬ unsafeIndex src pos < 0x20 := by
    rw [unsafeIndex_eq h]
    rcases charAtPos_cases h with heq | ⟨-, hge⟩ <;> omega
  have hnewline : unsafeIndex src pos ≠ 0x0A := fun hh => hcontrol (by rw [hh]; decide)
  rw [pStringHelp, if_neg h.lt_of_cons.not_ge]
  dsimp only
  rw [if_neg hquote, if_neg hnewline, if_neg hback, if_neg hcontrol, charWidthAt_eq h]

/-- The test for a hex digit, on the unit at the cursor. -/
theorem isHex_iff (h : At src pos end_ (u :: t)) :
    isHex (unsafeIndex src pos) = true ↔ IsHex u := by
  rw [isHex, IsHex, IsDigit, unsafeIndex_eq h]
  simp only [Bool.or_eq_true, Bool.and_eq_true, decide_eq_true_eq, or_assoc]
  rcases charAtPos_cases h with heq | ⟨hhigh, hle⟩
  · rw [heq]
  · have hge := hhigh.1
    exact iff_of_false (by omega) (by omega)

/-- What may follow a backslash. -/
theorem escaped_isSome_iff (h : At src pos end_ (u :: t)) :
    unsafeIndex src pos ∈ [0x22, 0x5C, 0x2F, 0x62, 0x66, 0x6E, 0x72, 0x74] ↔
      (escaped u).isSome := by
  have hiff : ∀ c : UInt16, c.toNat < 0xD800 → (unsafeIndex src pos = c.toNat ↔ u = c) :=
    fun c hc => unsafeIndex_eq_iff h hc
  have hmem : unsafeIndex src pos ∈ [0x22, 0x5C, 0x2F, 0x62, 0x66, 0x6E, 0x72, 0x74] ↔
      u = 0x22 ∨ u = 0x5C ∨ u = 0x2F ∨ u = 0x62 ∨ u = 0x66 ∨ u = 0x6E ∨ u = 0x72 ∨ u = 0x74 := by
    rw [← hiff 0x22 (by decide), ← hiff 0x5C (by decide), ← hiff 0x2F (by decide),
      ← hiff 0x62 (by decide), ← hiff 0x66 (by decide), ← hiff 0x6E (by decide),
      ← hiff 0x72 (by decide), ← hiff 0x74 (by decide)]
    simp
  rw [hmem, escaped_isSome]

/-- One round of the String's loop at a backslash, branch by branch. -/
theorem pStringHelp_escape (h : At src pos end_ (0x5C :: u :: t)) (row col : ℕ) :
    pStringHelp src pos end_ row col
      = if (escaped u).isSome then pStringHelp src (pos + 2) end_ row (col + 2)
        else if u = 0x75 then
          if pos + 6 ≤ end_ ∧ isHex (unsafeIndex src (pos + 2)) ∧ isHex (unsafeIndex src (pos + 3))
              ∧ isHex (unsafeIndex src (pos + 4)) ∧ isHex (unsafeIndex src (pos + 5)) then
            pStringHelp src (pos + 6) end_ row (col + 6)
          else ((.BadString .BadStringEscapeHex, pos), (row, col))
        else ((.BadString .BadStringEscapeChar, pos), (row, col)) := by
  have hback := (unsafeIndex_eq_iff h (c := 0x5C) (by decide)).mpr rfl
  have hword : unsafeIndex src pos = 0x5C := hback
  have hesc := escaped_isSome_iff h.tail
  have huni : unsafeIndex src (pos + 1) = 0x75 ↔ u = 0x75 :=
    unsafeIndex_eq_iff h.tail (c := 0x75) (by decide)
  rw [pStringHelp, if_neg h.lt_of_cons.not_ge]
  dsimp only
  rw [if_neg (by rw [hword]; decide), if_neg (by rw [hword]; decide), if_pos hword,
    if_neg h.tail.lt_of_cons.not_ge]
  simp only [hesc]
  by_cases hu : u = 0x75
  · rw [if_pos hu, if_pos (huni.mpr hu)]
  · rw [if_neg hu, if_neg fun hh => hu (huni.mp hh)]

/-- The quote ends the loop. -/
theorem pStringHelp_close (h : At src pos end_ (0x22 :: t)) (row col : ℕ) :
    pStringHelp src pos end_ row col = ((.GoodString, pos + 1), (row, col + 1)) := by
  have hquote := (unsafeIndex_eq_iff h (c := 0x22) (by decide)).mpr rfl
  rw [pStringHelp, if_neg h.lt_of_cons.not_ge]
  exact if_pos hquote

/-- The scanner goes to the closing mark of a string. -/
theorem pStringHelp_reads {raw : Text} (hbody : Body t raw r) (h : At src pos end_ t)
    (row col : ℕ) : ∃ row' col',
      pStringHelp src pos end_ row col = ((.GoodString, pos + raw.length + 1), (row', col')) := by
  -- one case for each form a string goes on with
  induction hbody generalizing pos row col with
  | close r =>
    rw [pStringHelp_close h]
    exact ⟨row, col + 1, rfl⟩
  | @plain u t raw r hu hbody ih =>
    have hadd : pos + (raw.length + 1) + 1 = pos + 1 + raw.length + 1 := by omega
    rw [pStringHelp_plain h hu, List.length_cons, hadd]
    by_cases hpair : IsHigh u.toNat ∧ ∃ v ∈ t.head?, IsLow v.toNat
    · -- the scanner takes the pair at once, and the second half would be a character of its own
      rw [if_pos hpair]
      obtain ⟨-, v, hv, hlow⟩ := hpair
      obtain ⟨t', rfl⟩ := List.head?_eq_some_iff.mp hv
      have hv : IsPlain v := by
        obtain ⟨hge, -⟩ := hlow
        refine ⟨by omega, ?_, ?_⟩ <;> rintro rfl <;> exact absurd hge (by decide)
      have hhigh : ¬ (IsHigh v.toNat ∧ ∃ w ∈ t'.head?, IsLow w.toNat) := by
        rintro ⟨hh, -⟩
        exact absurd (hh.2.trans_lt (by decide : 0xDBFF < 0xDC00)) hlow.1.not_gt
      obtain ⟨row', col', heq⟩ := ih h.tail row col
      rw [pStringHelp_plain h.tail hv, if_neg hhigh] at heq
      exact ⟨row', col', heq⟩
    · rw [if_neg hpair]
      exact ih h.tail row (col + 1)
  | @escape u t raw r hu hbody ih =>
    rw [pStringHelp_escape h, if_pos hu]
    obtain ⟨row', col', heq⟩ := ih h.tail.tail row (col + 2)
    refine ⟨row', col', heq.trans ?_⟩
    simp only [List.length_cons]
    congr 3
    omega
  | @unicode a b c d t raw r ha hb hc hd hbody ih =>
    have h₂ := h.tail.tail
    have hend : pos + 6 ≤ end_ := h₂.tail.tail.tail.lt_of_cons
    have hhex : pos + 6 ≤ end_ ∧ isHex (unsafeIndex src (pos + 2)) ∧
        isHex (unsafeIndex src (pos + 3)) ∧ isHex (unsafeIndex src (pos + 4)) ∧
        isHex (unsafeIndex src (pos + 5)) :=
      ⟨hend, (isHex_iff h₂).mpr ha, (isHex_iff h₂.tail).mpr hb, (isHex_iff h₂.tail.tail).mpr hc,
        (isHex_iff h₂.tail.tail.tail).mpr hd⟩
    rw [pStringHelp_escape h, if_neg (by decide), if_pos rfl, if_pos hhex]
    obtain ⟨row', col', heq⟩ := ih h₂.tail.tail.tail.tail row (col + 6)
    refine ⟨row', col', heq.trans ?_⟩
    simp only [List.length_cons]
    congr 3
    omega

/-- What the scanner goes over is a string. -/
theorem pStringHelp_good (n : ℕ) (ht : t.length ≤ n) (h : At src pos end_ t) {row col : ℕ}
    (hgood : (pStringHelp src pos end_ row col).1.1 = .GoodString) : ∃ raw r, Body t raw r := by
  -- `n` bounds what is left, since an escape takes two or six units at once
  induction n generalizing t pos row col with
  | zero =>
    obtain rfl := List.length_eq_zero_iff.mp (Nat.le_zero.mp ht)
    rw [pStringHelp, if_pos h.le_of_nil] at hgood
    cases hgood
  | succ n ih =>
    cases t with
    | nil =>
      rw [pStringHelp, if_pos h.le_of_nil] at hgood
      cases hgood
    | cons u t =>
      rw [List.length_cons] at ht
      by_cases hquote : u = 0x22
      · subst hquote
        exact ⟨[], t, .close t⟩
      -- after a backslash one of the short escapes, or `u` with four digits
      by_cases hback : u = 0x5C
      · subst hback
        cases t with
        | nil =>
          have hword : unsafeIndex src pos = 0x5C :=
            (unsafeIndex_eq_iff h (c := 0x5C) (by decide)).mpr rfl
          rw [pStringHelp, if_neg h.lt_of_cons.not_ge] at hgood
          dsimp only at hgood
          rw [if_neg (by rw [hword]; decide), if_neg (by rw [hword]; decide), if_pos hword,
            if_pos h.tail.le_of_nil] at hgood
          cases hgood
        | cons v t =>
          rw [List.length_cons] at ht
          rw [pStringHelp_escape h] at hgood
          split_ifs at hgood with hesc huni hhex
          · obtain ⟨raw, r, hbody⟩ := ih (by omega) h.tail.tail hgood
            exact ⟨_, r, .escape hesc hbody⟩
          · subst huni
            have h₂ := h.tail.tail
            obtain ⟨hend, ha, hb, hc, hd⟩ := hhex
            have hlen := h₂.length (by omega)
            rcases t with _ | ⟨a, _ | ⟨b, _ | ⟨c, _ | ⟨d, t⟩⟩⟩⟩
            · rw [List.length_nil] at hlen; omega
            · rw [List.length_singleton] at hlen; omega
            · simp only [List.length_cons, List.length_nil] at hlen; omega
            · simp only [List.length_cons, List.length_nil] at hlen; omega
            · simp only [List.length_cons] at ht
              obtain ⟨raw, r, hbody⟩ := ih (by omega) h₂.tail.tail.tail.tail hgood
              exact ⟨_, r, .unicode ((isHex_iff h₂).mp ha) ((isHex_iff h₂.tail).mp hb)
                ((isHex_iff h₂.tail.tail).mp hc) ((isHex_iff h₂.tail.tail.tail).mp hd) hbody⟩
      -- a plain unit, or both halves of a pair; control characters are refused
      by_cases hcontrol : 0x20 ≤ u.toNat
      · have hplain : IsPlain u := ⟨hcontrol, hquote, hback⟩
        rw [pStringHelp_plain h hplain] at hgood
        split_ifs at hgood with hpair
        · obtain ⟨-, v, hv, hlow⟩ := hpair
          obtain ⟨t', rfl⟩ := List.head?_eq_some_iff.mp hv
          have hv : IsPlain v := by
            obtain ⟨hge, -⟩ := hlow
            refine ⟨by omega, ?_, ?_⟩ <;> rintro rfl <;> exact absurd hge (by decide)
          rw [List.length_cons] at ht
          obtain ⟨raw, r, hbody⟩ := ih (by omega) h.tail.tail hgood
          exact ⟨_, r, .plain hplain (.plain hv hbody)⟩
        · obtain ⟨raw, r, hbody⟩ := ih (by omega) h.tail hgood
          exact ⟨_, r, .plain hplain hbody⟩
      · have hword : unsafeIndex src pos = u.toNat := by
          rw [unsafeIndex_eq h]
          rcases charAtPos_cases h with heq | ⟨hhigh, -⟩
          · exact heq
          · exact absurd (hhigh.1.trans' (by decide : 0x20 ≤ 0xD800)) hcontrol
        rw [pStringHelp, if_neg h.lt_of_cons.not_ge] at hgood
        dsimp only at hgood
        rw [hword, if_neg (by omega)] at hgood
        split_ifs at hgood
        · omega
        · omega
        · omega

/-- Where no quote stands nothing is read. -/
theorem pString_eerr {e : ℕ → ℕ → ParseError} (hs : Inside s) (h : s.rest.head? ≠ some 0x22) :
    pString e s = .eerr s.row s.col e := by
  rw [pString, if_neg]
  exact fun hnext => h ((next_iff hs (c := 0x22) (by decide)).mp hnext)

/-- A String of the grammar is read to its closing quote. -/
theorem pString_takes {e : ℕ → ℕ → ParseError} {raw : Text} (hs : Inside s) (h : s.rest = 0x22 :: t)
    (hbody : Body t raw r) : ∃ snippet, Takes (pString e) s snippet r ∧ snippet.text = raw := by
  have hat := hs.at
  rw [h] at hat
  have hnext : s.pos < s.end_ ∧ unsafeIndex s.src s.pos = 0x22 :=
    (next_iff hs (c := 0x22) (by decide)).mpr (by rw [h]; rfl)
  obtain ⟨row', col', heq⟩ := pStringHelp_reads hbody hat.tail s.row (s.col + 1)
  have hbodyAt : At s.src (s.pos + 1) s.end_ (raw ++ 0x22 :: r) := hbody.eq ▸ hat.tail
  have hafter := hbodyAt.append
  obtain ⟨hwithin, hrest⟩ := within_of_at row' col' hafter.tail hafter.lt_of_cons
  refine ⟨⟨s.src, s.pos + 1, raw.length, s.row, s.col + 1⟩, ⟨_, Or.inl ?_, hwithin, hrest⟩,
    hbodyAt.take⟩
  have hlen : s.pos + 1 + raw.length + 1 - (s.pos + 1) - 1 = raw.length := by omega
  rw [pString, if_pos hnext]
  dsimp only
  rw [heq]
  dsimp only
  rw [hlen]

/-- A String that is read is one of the grammar's. -/
theorem pString_gives {e : ℕ → ℕ → ParseError} {snippet : Snippet} (hs : Inside s)
    (h : (pString e s).Gives snippet s') : Within s s' ∧
      ∃ t, s.rest = 0x22 :: t ∧ Body t snippet.text s'.rest := by
  by_cases hhead : s.rest.head? = some 0x22
  · obtain ⟨t, ht⟩ := List.head?_eq_some_iff.mp hhead
    have hat := hs.at
    rw [ht] at hat
    have hgood : (pStringHelp s.src (s.pos + 1) s.end_ s.row (s.col + 1)).1.1 = .GoodString := by
      have hnext : s.pos < s.end_ ∧ unsafeIndex s.src s.pos = 0x22 :=
        (next_iff hs (c := 0x22) (by decide)).mpr hhead
      rw [pString, if_pos hnext] at h
      dsimp only at h
      cases hstatus : (pStringHelp s.src (s.pos + 1) s.end_ s.row (s.col + 1)).1.1 with
      | GoodString => rfl
      | BadString problem =>
        rw [hstatus] at h
        exact absurd h not_gives_cerr
    obtain ⟨raw, r, hbody⟩ := pStringHelp_good _ le_rfl hat.tail hgood
    obtain ⟨snippet', ⟨s₁, hgives, hwithin, hrest⟩, htext⟩ := pString_takes (e := e) hs ht hbody
    obtain ⟨rfl, rfl⟩ := gives_inj h hgives
    exact ⟨hwithin, t, ht, by rw [htext, hrest]; exact hbody⟩
  · rw [pString_eerr hs hhead] at h
    exact absurd h not_gives_eerr

/-! ## Numbers -/

section

variable (host : Host)

/-- A digit is its unit. -/
theorem unsafeIndex_digit (h : At src pos end_ (u :: t)) (hu : IsDigit u) :
    unsafeIndex src pos = u.toNat := by
  rw [unsafeIndex_eq h]
  rcases charAtPos_cases h with heq | ⟨hhigh, -⟩
  · exact heq
  · exact absurd (hhigh.1.trans hu.2) (by decide)

theorem isDecimalDigit_unsafeIndex (h : At src pos end_ (u :: t)) :
    isDecimalDigit (unsafeIndex src pos) = true ↔ IsDigit u := by
  rw [unsafeIndex_eq h]
  exact isDecimalDigit_iff h

/-- A fraction or an exponent is next. -/
def StartsReal (t : Text) : Prop := ∃ u ∈ t.head?, u = 0x2E ∨ u = 0x65 ∨ u = 0x45

/-- The loop over digits passes over all of them, and says whether a fraction or an exponent
    follows. -/
theorem chompInt_reads (h : At src pos end_ t) (n : ℤ) : ∃ ds r status,
    chompInt host src pos end_ n = (status, host.readOnto n ds, pos + ds.length) ∧
      Digits t ds r ∧ (∀ u ∈ r.head?, ¬ IsDigit u) ∧ (status = .GoodInt ↔ ¬ StartsReal r) := by
  induction t generalizing pos n with
  | nil =>
    rw [chompInt, if_neg h.le_of_nil.not_gt]
    refine ⟨[], [], .GoodInt, rfl, .nil [], by simp, iff_of_true rfl ?_⟩
    rintro ⟨u, hu, -⟩
    cases hu
  | cons u t ih =>
    rw [chompInt, if_pos h.lt_of_cons]
    dsimp only
    by_cases hdigit : IsDigit u
    · rw [if_pos ((isDecimalDigit_unsafeIndex h).mpr hdigit), unsafeIndex_digit h hdigit]
      obtain ⟨ds, r, status, heq, hdigits, hend, hstatus⟩ :=
        ih h.tail (host.add (host.mul 10 n) (u.toNat - 0x30))
      refine ⟨u :: ds, r, status, heq.trans ?_, .cons hdigit hdigits, hend, hstatus⟩
      rw [List.length_cons, Nat.add_assoc, Nat.add_comm 1]
      rfl
    · have hreal : (unsafeIndex src pos = 0x2E ∨ unsafeIndex src pos = 0x65 ∨
          unsafeIndex src pos = 0x45) ↔ StartsReal (u :: t) := by
        have h₁ : unsafeIndex src pos = 0x2E ↔ u = 0x2E :=
          unsafeIndex_eq_iff h (c := 0x2E) (by decide)
        have h₂ : unsafeIndex src pos = 0x65 ↔ u = 0x65 :=
          unsafeIndex_eq_iff h (c := 0x65) (by decide)
        have h₃ : unsafeIndex src pos = 0x45 ↔ u = 0x45 :=
          unsafeIndex_eq_iff h (c := 0x45) (by decide)
        rw [h₁, h₂, h₃, StartsReal]
        simp
      have hend : ∀ v ∈ (u :: t).head?, ¬ IsDigit v := by
        intro v hv
        rw [← Option.some.inj hv]
        exact hdigit
      rw [if_neg fun hh => hdigit ((isDecimalDigit_unsafeIndex h).mp hh)]
      by_cases hbad : StartsReal (u :: t)
      · rw [if_pos (hreal.mpr hbad)]
        exact ⟨[], u :: t, .BadIntEnd, rfl, .nil _, hend, iff_of_false (by simp) (by simpa)⟩
      · rw [if_neg fun hh => hbad (hreal.mp hh)]
        exact ⟨[], u :: t, .GoodInt, rfl, .nil _, hend, iff_of_true rfl hbad⟩

/-- Where no digit stands nothing is read. -/
theorem pInt_eerr (hs : Inside s) (h : ∀ u ∈ s.rest.head?, ¬ IsDigit u) :
    pInt host s = .eerr s.row s.col .Start := by
  have hat := hs.at
  rw [pInt]
  cases hrest : s.rest with
  | nil =>
    rw [hrest] at hat
    rw [if_pos hat.le_of_nil]
  | cons u t =>
    rw [hrest] at hat h
    rw [if_neg hat.lt_of_cons.not_ge]
    dsimp only
    rw [if_pos fun hh => h u rfl ((isDecimalDigit_unsafeIndex hat).mp hh)]

/-- The first digit is read onto zero. -/
theorem readOnto_cons (hu : IsDigit u) (ds : Text) :
    host.readOnto 0 (u :: ds) = host.readOnto (u.toNat - 0x30) ds := by
  have hdigit : host.add (host.mul 10 0) (u.toNat - 0x30) = u.toNat - 0x30 := by
    obtain ⟨hlo, hhi⟩ := hu
    rw [Host.mul, Int.mul_zero,
      Host.keep_of_holds (Host.holds_of_lt host (by norm_num) (by norm_num)),
      Host.add, Int.zero_add]
    exact Host.keep_of_holds (Host.holds_of_lt host (by omega) (by omega))
  rw [Host.readOnto, List.foldl_cons, hdigit]
  rfl

/-- A zero is a number of its own. -/
theorem pInt_zero (hs : Inside s) (h : s.rest = 0x30 :: t) :
    (∃ row col e, pInt host s = .cerr row col e ∧ ∃ v ∈ t.head?, IsDigit v ∨ v = 0x2E) ∨
      ((pInt host s).Gives (.Int 0) { s with pos := s.pos + 1, col := s.col + 1 } ∧
        ¬ ∃ v ∈ t.head?, IsDigit v ∨ v = 0x2E) := by
  have hat := hs.at
  rw [h] at hat
  have hword : unsafeIndex s.src s.pos = 0x30 := unsafeIndex_digit hat (by decide)
  rw [pInt, if_neg hat.lt_of_cons.not_ge]
  dsimp only
  rw [hword, if_neg (by decide), if_pos rfl]
  cases t with
  | nil =>
    rw [if_neg hat.tail.le_of_nil.not_gt]
    refine Or.inr ⟨Or.inl rfl, ?_⟩
    rintro ⟨v, hv, -⟩
    cases hv
  | cons v t =>
    have hdot : unsafeIndex s.src (s.pos + 1) = 0x2E ↔ v = 0x2E :=
      unsafeIndex_eq_iff hat.tail (c := 0x2E) (by decide)
    have hdigit := isDecimalDigit_unsafeIndex hat.tail
    rw [if_pos hat.tail.lt_of_cons]
    split_ifs with h₁ h₂
    · exact Or.inl ⟨_, _, _, rfl, v, rfl, Or.inl (hdigit.mp h₁)⟩
    · exact Or.inl ⟨_, _, _, rfl, v, rfl, Or.inr (hdot.mp h₂)⟩
    · refine Or.inr ⟨Or.inl rfl, ?_⟩
      rintro ⟨w, hw, hw'⟩
      obtain rfl := Option.some.inj hw
      rcases hw' with hw' | hw'
      · exact h₁ (hdigit.mpr hw')
      · exact h₂ (hdot.mpr hw')

/-- Another digit is read with the digits after it. -/
theorem pInt_digits (hs : Inside s) (h : s.rest = u :: t) (hu : IsDigit u) (hne : u ≠ 0x30) :
    ∃ ds r, Digits t ds r ∧ (∀ v ∈ r.head?, ¬ IsDigit v) ∧
      ((StartsReal r ∧ ∃ row col e, pInt host s = .cerr row col e) ∨
        (¬ StartsReal r ∧ (pInt host s).Gives (.Int (host.readOnto 0 (u :: ds)))
          { s with pos := s.pos + 1 + ds.length, col := s.col + (1 + ds.length) })) := by
  have hat := hs.at
  rw [h] at hat
  have hword := unsafeIndex_digit hat hu
  have hzero : unsafeIndex s.src s.pos ≠ 0x30 :=
    fun hh => hne ((unsafeIndex_eq_iff hat (c := 0x30) (by decide)).mp hh)
  obtain ⟨ds, r, status, heq, hdigits, hend, hstatus⟩ :=
    chompInt_reads host hat.tail (u.toNat - 0x30)
  refine ⟨ds, r, hdigits, hend, ?_⟩
  have hlen : s.pos + 1 + ds.length - s.pos = 1 + ds.length := by omega
  rw [pInt, if_neg hat.lt_of_cons.not_ge]
  dsimp only
  rw [if_neg (not_not.mpr ((isDecimalDigit_unsafeIndex hat).mpr hu)), if_neg hzero, hword, heq]
  dsimp only
  rw [hlen, readOnto_cons host hu]
  cases status with
  | GoodInt => exact Or.inr ⟨hstatus.mp rfl, Or.inl rfl⟩
  | BadIntEnd =>
    by_cases hreal : StartsReal r
    · exact Or.inl ⟨hreal, _, _, _, rfl⟩
    · cases hstatus.mpr hreal

/-- What may follow a value continues no number. -/
theorem endsValue_not_number (hr : EndsValue r) :
    (∀ v ∈ r.head?, ¬ IsDigit v) ∧ ¬ (∃ v ∈ r.head?, IsDigit v ∨ v = 0x2E) ∧ ¬ StartsReal r := by
  have hstop : ∀ v ∈ r.head?, ¬ IsDigit v ∧ v ≠ 0x2E ∧ v ≠ 0x65 ∧ v ≠ 0x45 := by
    intro v hv
    rcases hr v hv with (rfl | rfl | rfl | rfl) | rfl | rfl | rfl <;> decide
  refine ⟨fun v hv => (hstop v hv).1, ?_, ?_⟩
  · rintro ⟨v, hv, hdigit | hdot⟩
    · exact (hstop v hv).1 hdigit
    · exact (hstop v hv).2.1 hdot
  · rintro ⟨v, hv, hdot | he | hE⟩
    · exact (hstop v hv).2.1 hdot
    · exact (hstop v hv).2.2.1 he
    · exact (hstop v hv).2.2.2 hE

/-- A whole number of the grammar is read to its end. -/
theorem pInt_takes {raw : Text} (hs : Inside s) (h : Whole s.rest raw r) (hr : EndsValue r) :
    Takes (pInt host) s (.Int (host.readOnto 0 raw)) r := by
  have hat := hs.at
  obtain ⟨hend, hzero, hreal⟩ := endsValue_not_number hr
  generalize hrest : s.rest = t at h hat
  cases h with
  | zero =>
    rcases pInt_zero host hs hrest with ⟨-, -, -, -, hbad⟩ | ⟨hgives, -⟩
    · exact absurd hbad hzero
    · obtain ⟨hwithin, hr'⟩ := within_of_at s.row (s.col + 1) hat.tail hat.lt_of_cons
      rw [readOnto_cons host (by decide)]
      exact ⟨_, hgives, hwithin, hr'⟩
  | @digits u t ds r hu hne h =>
    obtain ⟨ds', r', hdigits, hend', hreads⟩ := pInt_digits host hs hrest hu hne
    obtain ⟨rfl, rfl⟩ := h.unique hdigits hend hend'
    rcases hreads with ⟨hbad, -⟩ | ⟨-, hgives⟩
    · exact absurd hbad hreal
    · have hlen := h.length_eq
      have hbound := hat.tail.length hat.lt_of_cons
      have hlt := hat.lt_of_cons
      have hafter : At s.src (s.pos + 1) s.end_ (ds ++ r) := h.eq ▸ hat.tail
      obtain ⟨hwithin, hr'⟩ :=
        within_of_at s.row (s.col + (1 + ds.length)) hafter.append (by omega)
      exact ⟨_, hgives, hwithin, hr'⟩

/-- A number that is read is a whole number of the grammar. -/
theorem pInt_gives {value : AST_} (hs : Inside s) (h : (pInt host s).Gives value s') :
    Within s s' ∧ ∃ raw, Whole s.rest raw s'.rest ∧ value = .Int (host.readOnto 0 raw) := by
  have hat := hs.at
  by_cases hhead : ∀ u ∈ s.rest.head?, ¬ IsDigit u
  · rw [pInt_eerr host hs hhead] at h
    exact absurd h not_gives_eerr
  push Not at hhead
  obtain ⟨u, hu, hdigit⟩ := hhead
  obtain ⟨t, ht⟩ := List.head?_eq_some_iff.mp hu
  rw [ht] at hat
  by_cases hne : u = 0x30
  · subst hne
    rcases pInt_zero host hs ht with ⟨row, col, e, heq, -⟩ | ⟨hgives, -⟩
    · rw [heq] at h
      exact absurd h not_gives_cerr
    · obtain ⟨rfl, rfl⟩ := gives_inj h hgives
      obtain ⟨hwithin, hr'⟩ := within_of_at s.row (s.col + 1) hat.tail hat.lt_of_cons
      refine ⟨hwithin, [0x30], ?_, ?_⟩
      · rw [hr', ht]
        exact .zero t
      · rw [readOnto_cons host (by decide)]
        rfl
  · obtain ⟨ds, r, hdigits, -, ⟨-, row, col, e, heq⟩ | ⟨-, hgives⟩⟩ :=
      pInt_digits host hs ht hdigit hne
    · rw [heq] at h
      exact absurd h not_gives_cerr
    · obtain ⟨rfl, rfl⟩ := gives_inj h hgives
      have hlen := hdigits.length_eq
      have hbound := hat.tail.length hat.lt_of_cons
      have hlt := hat.lt_of_cons
      have hafter : At s.src (s.pos + 1) s.end_ (ds ++ r) := hdigits.eq ▸ hat.tail
      obtain ⟨hwithin, hr'⟩ :=
        within_of_at s.row (s.col + (1 + ds.length)) hafter.append (by omega)
      refine ⟨hwithin, u :: ds, ?_, rfl⟩
      rw [hr', ht]
      exact .digits hdigit hne hdigits

end

/-! ## Words -/

section

variable {isAlpha : ℕ → Bool} {word : List Char} {l : Text}

/-- The unit at an index of what is left. -/
theorem unsafeIndex_at_iff (h : At src pos end_ t) {i : ℕ} (hi : i < t.length)
    (hc : c.toNat < 0xD800) : unsafeIndex src (pos + i) = c.toNat ↔ t[i]? = some c := by
  have hsplit : t = t.take i ++ t.drop i := (List.take_append_drop i t).symm
  have hlen : (t.take i).length = i := List.length_take_of_le hi.le
  rw [hsplit] at h
  have hat := h.append
  rw [hlen, List.drop_eq_getElem_cons hi] at hat
  rw [unsafeIndex_eq_iff hat hc, List.getElem?_eq_getElem hi, Option.some.injEq]

/-- The letters of a word are next. -/
theorem word_next_iff (h : At src pos end_ t) (hle : pos ≤ end_)
    (hword : List.Forall₂ (fun c w => c.toNat = w.toNat ∧ c.toNat < 0xD800) l word) :
    (pos + word.length ≤ end_ ∧ ∀ w ∈ word.zipIdx, unsafeIndex src (pos + w.2) = w.1.toNat) ↔
      l <+: t := by
  have hlen := hword.length_eq
  have htext := h.length hle
  constructor
  · rintro ⟨hend, hall⟩
    rw [List.prefix_iff_getElem?]
    intro i hi
    have hiw : i < word.length := hlen ▸ hi
    obtain ⟨hc, hlt⟩ := hword.get hi hiw
    have hmem : (word[i], i) ∈ word.zipIdx := by
      rw [List.mem_zipIdx_iff_getElem?, List.getElem?_eq_getElem hiw]
    refine (unsafeIndex_at_iff h (by omega) hlt).mp ?_
    exact (hall _ hmem).trans hc.symm
  · intro hprefix
    have hle' := hprefix.length_le
    refine ⟨by omega, ?_⟩
    intro w hw
    rw [List.mem_zipIdx_iff_getElem?] at hw
    obtain ⟨hiw, hget⟩ := List.getElem?_eq_some_iff.mp hw
    have hi : w.2 < l.length := hlen ▸ hiw
    obtain ⟨hc, hlt⟩ := hword.get hi hiw
    have hunit := (List.prefix_iff_getElem?.mp hprefix) w.2 hi
    rw [← hget]
    exact ((unsafeIndex_at_iff h (by omega) hlt).mpr hunit).trans hc

/-- What may follow a value continues no word. -/
theorem getInnerWidth_endsValue (h : At src pos end_ t) (ht : EndsValue t) :
    getInnerWidth isAlpha src pos end_ = 0 := by
  rw [getInnerWidth]
  cases t with
  | nil => rw [if_neg h.le_of_nil.not_gt]
  | cons u t =>
    have hu : ∃ c : UInt16, c ∈ ([0x20, 0x09, 0x0A, 0x0D, 0x2C, 0x5D, 0x7D] : List UInt16)
        ∧ u = c := by
      rcases ht u rfl with (rfl | rfl | rfl | rfl) | rfl | rfl | rfl <;> simp
    obtain ⟨c, hc, rfl⟩ := hu
    have hlt : u.toNat < 0xD800 := by
      simp only [List.mem_cons, List.not_mem_nil, or_false] at hc
      rcases hc with rfl | rfl | rfl | rfl | rfl | rfl | rfl <;> decide
    have hword : unsafeIndex src pos = u.toNat := (unsafeIndex_eq_iff h hlt).mpr rfl
    rw [if_pos h.lt_of_cons, hword, ParseNumber.getInnerWidthHelp]
    simp only [List.mem_cons, List.not_mem_nil, or_false] at hc
    rcases hc with rfl | rfl | rfl | rfl | rfl | rfl | rfl <;> rfl

/-- Where the keyword does not stand nothing is read. -/
theorem keyword_eerr {e : ℕ → ℕ → ParseError} (hs : Inside s)
    (hword : List.Forall₂ (fun c w => c.toNat = w.toNat ∧ c.toNat < 0xD800) l word)
    (h : ¬ l <+: s.rest) : keyword isAlpha word e s = .eerr s.row s.col e := by
  rw [keyword, if_neg]
  rintro ⟨hend, hall, -⟩
  exact h ((word_next_iff hs.at hs.le hword).mp ⟨hend, hall⟩)

/-- A keyword that ends where a value may end is read. -/
theorem keyword_takes {e : ℕ → ℕ → ParseError} (hs : Inside s)
    (hword : List.Forall₂ (fun c w => c.toNat = w.toNat ∧ c.toNat < 0xD800) l word)
    (h : s.rest = l ++ r) (hr : EndsValue r) : Takes (keyword isAlpha word e) s () r := by
  have hat := hs.at
  obtain ⟨hend, hall⟩ := (word_next_iff hat hs.le hword).mpr ⟨r, h.symm⟩
  rw [h] at hat
  have hafter := hat.append
  rw [hword.length_eq] at hafter
  obtain ⟨hwithin, hrest⟩ := within_of_at s.row (s.col + word.length) hafter hend
  refine ⟨_, Or.inl ?_, hwithin, hrest⟩
  rw [keyword, if_pos ⟨hend, hall, getInnerWidth_endsValue hafter hr⟩]

/-- A keyword that is read was there. -/
theorem keyword_gives {e : ℕ → ℕ → ParseError} (hs : Inside s)
    (hword : List.Forall₂ (fun c w => c.toNat = w.toNat ∧ c.toNat < 0xD800) l word)
    (h : (keyword isAlpha word e s).Gives () s') : Within s s' ∧ s.rest = l ++ s'.rest := by
  have hat := hs.at
  rw [keyword] at h
  split_ifs at h with hnext
  · obtain ⟨hend, hall, -⟩ := hnext
    obtain ⟨r, hr⟩ := (word_next_iff hat hs.le hword).mp ⟨hend, hall⟩
    rw [← hr] at hat
    have hafter := hat.append
    rw [hword.length_eq] at hafter
    obtain ⟨hwithin, hrest⟩ := within_of_at s.row (s.col + word.length) hafter hend
    obtain ⟨-, rfl⟩ := gives_inj h (Or.inl rfl)
    exact ⟨hwithin, by rw [hrest, hr]⟩
  · exact absurd h not_gives_eerr

end

end

end Json

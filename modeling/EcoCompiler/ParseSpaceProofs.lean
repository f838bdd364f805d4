import EcoCompiler.GapGrammar

/-! # Gaps are read exactly

    * `eatMultiCommentHelp_inside` — the inside of a block comment is read to where it is balanced,
      to a tab or to the end;
    * `eat_piece`, `eat_ends` — the loop goes over the pieces of a gap, and stops after them;
    * `gaps_exact` — what the parsers do with every text. -/

namespace ParseSpace

open Primitives DataInt64 ParseNumber ParseString SourceLiteral Mark

section

variable {src t l g : Text} {pos end_ row col : ℕ} {u : UInt16}

/-! ## One character -/

/-- The units of one character before the text `t`. -/
inductive OneCodePoint (t : Text) : Text → Prop where
  | pair {u v : UInt16} (hu : IsHigh u.toNat) (hv : IsLow v.toNat) : OneCodePoint t [u, v]
  | unit {u : UInt16} (h : IsHigh u.toNat → ∀ v ∈ t.head?, ¬ IsLow v.toNat) : OneCodePoint t [u]

/-- Every text that is not empty starts with one code point. -/
theorem exists_oneCodePoint (u : UInt16) (t : Text) :
    ∃ g l, u :: t = (u :: g) ++ l ∧ OneCodePoint l (u :: g) := by
  by_cases hpair : IsHigh u.toNat ∧ ∃ v ∈ t.head?, IsLow v.toNat
  · obtain ⟨hu, v, hv, hlow⟩ := hpair
    obtain ⟨l, rfl⟩ := List.head?_eq_some_iff.mp hv
    exact ⟨[v], l, rfl, .pair hu hlow⟩
  · exact ⟨[], t, rfl, .unit fun hu v hv hlow => hpair ⟨hu, v, hv, hlow⟩⟩

theorem OneCodePoint.of_prefix (h : OneCodePoint t g) (hl : l <+: t) : OneCodePoint l g := by
  cases h with
  | pair hu hv => exact .pair hu hv
  | unit h =>
    refine .unit fun hu v hv => h hu v ?_
    obtain ⟨r, rfl⟩ := hl
    obtain ⟨l, rfl⟩ := List.head?_eq_some_iff.mp hv
    rfl

/-- The width at the cursor is the code point's length. -/
theorem OneCodePoint.width (hg : OneCodePoint t g) (h : At src pos end_ (g ++ t)) :
    charWidthAt src pos end_ (unsafeIndex src pos) = g.length := by
  cases hg with
  | @pair u v hu hv => exact (charWidthAt_eq h).trans (if_pos ⟨hu, v, rfl, hv⟩)
  | unit hu =>
    refine (charWidthAt_eq h).trans (if_neg ?_)
    rintro ⟨hhigh, v, hv, hlow⟩
    exact hu hhigh v hv hlow

/-- More text behind does not change the first code point, unless a low surrogate joins it. -/
theorem OneCodePoint.append (hg : OneCodePoint l g) (ht : ∀ v ∈ t.head?, ¬ IsLow v.toNat) :
    OneCodePoint (l ++ t) g := by
  cases hg with
  | pair hu hv => exact .pair hu hv
  | unit h =>
    refine .unit fun hu => ?_
    cases l with
    | nil => exact ht
    | cons v l => exact h hu

/-- The characters of a text are its first code point's and the rest's. -/
theorem OneCodePoint.chars_append (hg : OneCodePoint t g) :
    chars (g ++ t) = chars g ++ chars t := by
  cases hg with
  | pair hu hv => exact (chars_pair hu hv t).trans (by rw [chars_pair hu hv []]; rfl)
  | unit hu => exact chars_cons hu

/-- A text is read by itself before a unit that is no low half of a pair. -/
theorem chars_append_of_head (ht : ∀ v ∈ t.head?, ¬ IsLow v.toNat) :
    chars (l ++ t) = chars l ++ chars t := by
  induction hn : l.length using Nat.strong_induction_on generalizing l with
  | _ n ih =>
    subst hn
    cases l with
    | nil => rfl
    | cons u l =>
      obtain ⟨g, r, heq, hg⟩ := exists_oneCodePoint u l
      have hlt : r.length < (u :: l).length := by
        rw [heq, List.length_append, List.length_cons]
        omega
      rw [heq, List.append_assoc, (hg.append ht).chars_append, hg.chars_append, ih _ hlt rfl,
        List.append_assoc]

/-- The place after two texts, cut between code points, is reached through the place after the
    first. -/
theorem after_append (ht : ∀ v ∈ t.head?, ¬ IsLow v.toNat) (place : ℕ × ℕ) :
    after false place (l ++ t) = after false (after false place l) t := by
  rw [after, chars_append_of_head ht, List.foldl_append]
  rfl

theorem OneCodePoint.after_append (hg : OneCodePoint t g) (place : ℕ × ℕ) :
    after false place (g ++ t) = after false (after false place g) t := by
  rw [after, hg.chars_append, List.foldl_append]
  rfl

/-- One code point but the newline is one column. -/
theorem OneCodePoint.after_eq (hg : OneCodePoint t g) (h : 0x0A ∉ g) (place : ℕ × ℕ) :
    after false place g = (place.1, place.2 + 1) := by
  cases hg with
  | pair hu hv => exact after_pair hu hv false place
  | unit hu =>
    refine after_unit ?_ (fun hm => absurd hm (by decide)) place
    rintro rfl
    exact h (List.mem_singleton_self _)

/-- A plain code point adds no mark. -/
theorem OneCodePoint.marks_append (hg : OneCodePoint t (u :: g)) (h : Plain u (g ++ t)) :
    marks (u :: g ++ t) = (u :: g).map .other ++ marks t := by
  cases hg with
  | @pair u v hu hv =>
    refine (marks_other h).trans (congrArg _ (marks_other ⟨?_, ?_⟩))
    · rintro rfl
      exact absurd hv (by decide)
    · rintro rfl
      exact absurd hv (by decide)
  | unit hu => exact marks_other h

theorem OneCodePoint.not_mem (hg : OneCodePoint t (u :: g)) {c : UInt16} (hc : c.toNat < 0xD800)
    (hu : u ≠ c) : c ∉ u :: g := by
  rw [List.mem_cons, not_or]
  refine ⟨fun heq => hu heq.symm, ?_⟩
  cases hg with
  | pair _ hv =>
    rw [List.mem_singleton]
    exact fun heq => ne_of_low hv hc heq.symm
  | unit _ => exact List.not_mem_nil

/-- The test at the cursor asks for the first unit of what is left. -/
theorem isWord_iff {c : UInt16} (hc : c.toNat < 0xD800) (h : At src pos end_ t) :
    isWord src pos end_ c.toNat = true ↔ t.head? = some c := by
  rw [isWord, Bool.and_eq_true, decide_eq_true_eq, decide_eq_true_eq]
  cases t with
  | nil => exact iff_of_false (fun hh => Nat.not_le.mpr hh.1 h.le_of_nil) (by simp)
  | cons u t =>
    rw [List.head?_cons, Option.some.injEq, ← unsafeIndex_eq_iff h hc]
    exact and_iff_right h.lt_of_cons

/-- The units of a bracket are counted one by one. -/
theorem after_plain_append (h : ∀ u ∈ g, IsPlain u) (t : Text) (place : ℕ × ℕ) :
    after false place (g ++ t) = after false (place.1, place.2 + g.length) t := by
  have hnot : ∀ u ∈ g, ¬ IsHigh u.toNat := fun u hu => (h u hu).not_high
  have hself := chars_append hnot []
  have hplain := after_plain h false place
  rw [List.append_nil] at hself
  rw [after, hself, chars, List.append_nil] at hplain
  rw [after, chars_append hnot, List.foldl_append, hplain]
  rfl

/-! ## The inside of a block comment -/

/-- How the inside of `k + 1` open comments is read. -/
inductive Inside (t : Text) (pos k : ℕ) (place : ℕ × ℕ) : (MultiStatus × ℕ) × (ℕ × ℕ) → Prop where
  | closed {b r : List (Mark UInt16)} (h : closeAt k (marks t) = some (b, r))
      (htab : 0x09 ∉ unmark b) :
      Inside t pos k place ((.MultiGood, pos + (unmark b).length + 2),
        after false place (unmark b ++ closeMark))
  | tab {body r : Text} (ht : t = body ++ 0x09 :: r) (htab : 0x09 ∉ body)
      (h : closeAt k (marks body) = none) :
      Inside t pos k place ((.MultiTab, pos + body.length), after false place body)
  | endless {p : ℕ} {place' : ℕ × ℕ} (htab : 0x09 ∉ t) (h : closeAt k (marks t) = none) :
      Inside t pos k place ((.MultiEndless, p), place')

/-- What a part of the text in front does to the rest. -/
theorem Inside.shift {k k' : ℕ} {m : List (Mark UInt16)} {place : ℕ × ℕ}
    {result : (MultiStatus × ℕ) × (ℕ × ℕ)}
    (h : Inside t (pos + g.length) k' (after false place g) result) (htab : 0x09 ∉ g)
    (hm : unmark m = g) (hmarks : ∀ l, l <+: t → marks (g ++ l) = m ++ marks l)
    (hclose : ∀ l, closeAt k (m ++ l) = (closeAt k' l).map (Prod.map (m ++ ·) id))
    (hafter : ∀ l, l <+: t → after false place (g ++ l) = after false (after false place g) l) :
    Inside (g ++ t) pos k place result := by
  cases h with
  | @closed b r h htabs =>
    have hprefix : unmark b ++ closeMark <+: t := by
      obtain ⟨hl, -⟩ := closes_of_closeAt h
      refine ⟨unmark r, ?_⟩
      rw [← unmark_marks hl, unmark_append, unmark_cons, List.append_assoc]
      rfl
    have hnew : closeAt k (marks (g ++ t)) = some (m ++ b, r) := by
      rw [hmarks t (List.prefix_refl t), hclose, h]
      rfl
    have hmem : 0x09 ∉ unmark (m ++ b) := by
      rw [unmark_append, hm, List.mem_append, not_or]
      exact ⟨htab, htabs⟩
    have hinside : Inside (g ++ t) pos k place _ := .closed hnew hmem
    rw [unmark_append, hm, List.append_assoc, hafter _ hprefix, List.length_append,
      ← Nat.add_assoc] at hinside
    exact hinside
  | @tab body r ht htabs h =>
    subst ht
    have hprefix : body <+: body ++ 0x09 :: r := List.prefix_append ..
    have hnew : closeAt k (marks (g ++ body)) = none := by
      rw [hmarks body hprefix, hclose, h]
      rfl
    have hmem : 0x09 ∉ g ++ body := by
      rw [List.mem_append, not_or]
      exact ⟨htab, htabs⟩
    have hinside : Inside (g ++ (body ++ 0x09 :: r)) pos k place _ :=
      .tab (List.append_assoc g body (0x09 :: r)).symm hmem hnew
    rw [hafter _ hprefix, List.length_append, ← Nat.add_assoc] at hinside
    exact hinside
  | endless htabs h =>
    refine .endless ?_ ?_
    · rw [List.mem_append, not_or]
      exact ⟨htab, htabs⟩
    · rw [hmarks t (List.prefix_refl t), hclose, h]
      rfl

/-- A character in front is passed over. -/
theorem Inside.codePoint {k : ℕ} {place : ℕ × ℕ} {result : (MultiStatus × ℕ) × (ℕ × ℕ)}
    (h : Inside t (pos + (u :: g).length) k (after false place (u :: g)) result)
    (hg : OneCodePoint t (u :: g)) (hplain : Plain u (g ++ t)) (htab : u ≠ 0x09) :
    Inside (u :: g ++ t) pos k place result := by
  refine h.shift (hg.not_mem (by decide) htab) (unmark_other (u :: g)) ?_
    (closeAt_nest (nest_other (u :: g)) k) ?_
  · intro l hl
    have hprefix : g ++ l <+: g ++ t := (List.prefix_append_right_inj g).mpr hl
    exact (hg.of_prefix hl).marks_append (hplain.of_prefix hprefix)
  · intro l hl
    exact (hg.of_prefix hl).after_append place

/-- An opening mark inside a comment goes one level down. -/
theorem Inside.opening {k : ℕ} {place : ℕ × ℕ} {result : (MultiStatus × ℕ) × (ℕ × ℕ)}
    (h : Inside t (pos + 2) (k + 1) (place.1, place.2 + 2) result) :
    Inside (openMark ++ t) pos k place result := by
  refine h.shift (m := [.opening]) (by decide) rfl ?_ ?_ ?_
  · intro l _
    exact marks_opening l
  · intro l
    rfl
  · intro l _
    exact after_plain_append (by simp [IsPlain]) l place

/-- A closing mark inside a comment comes one level up. -/
theorem Inside.closing {k : ℕ} {place : ℕ × ℕ} {result : (MultiStatus × ℕ) × (ℕ × ℕ)}
    (h : Inside t (pos + 2) k (place.1, place.2 + 2) result) :
    Inside (closeMark ++ t) pos (k + 1) place result := by
  refine h.shift (m := [.closing]) (by decide) rfl ?_ ?_ ?_
  · intro l _
    exact marks_closing l
  · intro l
    rfl
  · intro l _
    exact after_plain_append (by simp [IsPlain]) l place

/-- The first character of the inside of a comment. -/
theorem eatMultiCommentHelp_cons (h : At src pos end_ (u :: t)) (row col openComments : ℕ) :
    eatMultiCommentHelp src pos end_ row col openComments
      = if u = 0x0A then eatMultiCommentHelp src (pos + 1) end_ (row + 1) 1 openComments
        else if u = 0x09 then ((.MultiTab, pos), (row, col))
        else if u = 0x2D ∧ t.head? = some 0x7D then
          if openComments = 1 then ((.MultiGood, pos + 2), (row, col + 2))
          else eatMultiCommentHelp src (pos + 2) end_ row (col + 2) (openComments - 1)
        else if u = 0x7B ∧ t.head? = some 0x2D then
          eatMultiCommentHelp src (pos + 2) end_ row (col + 2) (openComments + 1)
        else
          eatMultiCommentHelp src (pos + charWidthAt src pos end_ (unsafeIndex src pos)) end_ row
            (col + 1) openComments := by
  have hnewline := unsafeIndex_eq_iff h (c := 0x0A) (by decide)
  have htab := unsafeIndex_eq_iff h (c := 0x09) (by decide)
  have hdash := unsafeIndex_eq_iff h (c := 0x2D) (by decide)
  have hbrace := unsafeIndex_eq_iff h (c := 0x7B) (by decide)
  have hclose := isWord_iff (c := 0x7D) (by decide) h.tail
  have hopen := isWord_iff (c := 0x2D) (by decide) h.tail
  rw [eatMultiCommentHelp.eq_def, if_neg h.lt_of_cons.not_ge]
  simp only [← hnewline, ← htab, ← hdash, ← hbrace, ← hclose, ← hopen]
  rfl

/-- The inside of comments is read to where they are balanced, to a tab or to the end. -/
theorem eatMultiCommentHelp_inside (h : At src pos end_ t) (k row col : ℕ) :
    Inside t pos k (row, col) (eatMultiCommentHelp src pos end_ row col (k + 1)) := by
  -- by length, since a bracket or a pair takes two units
  induction hn : t.length using Nat.strong_induction_on generalizing t pos k row col with
  | _ n ih =>
    subst hn
    cases t with
    | nil =>
      rw [eatMultiCommentHelp, if_pos h.le_of_nil]
      exact .endless (List.not_mem_nil) rfl
    | cons u t =>
      rw [eatMultiCommentHelp_cons h]
      split_ifs with hnewline htab hclose hk hopen
      · -- a newline
        subst hnewline
        have hg : OneCodePoint t [0x0A] := .unit fun hu => absurd hu (by decide)
        have hplain : Plain 0x0A t :=
          ⟨fun hu => absurd hu (by decide), fun hu => absurd hu (by decide)⟩
        exact (ih _ (Nat.lt_succ_self _) h.tail k (row + 1) 1 rfl).codePoint hg hplain (by decide)
      · subst htab
        exact .tab (List.nil_append _).symm List.not_mem_nil rfl
      · -- the last closing
        obtain ⟨rfl, ht⟩ := hclose
        obtain ⟨l, rfl⟩ := List.head?_eq_some_iff.mp ht
        obtain rfl : k = 0 := Nat.succ.inj hk
        have hnone := closeAt_closes (k := 0) Nest.nil (marks l)
        rw [List.nil_append, ← marks_closing] at hnone
        exact Inside.closed hnone List.not_mem_nil
      -- a closing that leaves some comment open
      · obtain ⟨rfl, ht⟩ := hclose
        obtain ⟨l, rfl⟩ := List.head?_eq_some_iff.mp ht
        obtain ⟨j, rfl⟩ := Nat.exists_eq_succ_of_ne_zero (fun hz => hk (congrArg Nat.succ hz))
        have hlt : l.length < (0x2D :: 0x7D :: l : Text).length := by simp
        exact (ih _ hlt h.tail.tail j row (col + 2) rfl).closing
      -- an opening: one comment more to close
      · obtain ⟨rfl, ht⟩ := hopen
        obtain ⟨l, rfl⟩ := List.head?_eq_some_iff.mp ht
        have hlt : l.length < (0x7B :: 0x2D :: l : Text).length := by simp
        exact (ih _ hlt h.tail.tail (k + 1) row (col + 2) rfl).opening
      · -- any other character
        obtain ⟨g, l, heq, hg⟩ := exists_oneCodePoint u t
        obtain ⟨-, rfl⟩ := List.cons.inj heq
        have hat : At src pos end_ (u :: g ++ l) := h
        have hplain : Plain u (g ++ l) :=
          ⟨fun hu ht => hclose ⟨hu, ht⟩, fun hu ht => hopen ⟨hu, ht⟩⟩
        have hplace := hg.after_eq (hg.not_mem (by decide) hnewline) (row, col)
        have hlt : l.length < (u :: (g ++ l)).length := by
          rw [List.length_cons, List.length_append]
          omega
        have hinside := ih _ hlt hat.append k row (col + 1) rfl
        rw [hg.width hat]
        exact Inside.codePoint (hplace ▸ hinside) hg hplain htab

/-- The inside of one comment. -/
theorem eatMultiCommentHelp_cases (h : At src pos end_ t) (row col : ℕ) :
    (∃ body r, t = body ++ closeMark ++ r ∧ Balanced body ∧ 0x09 ∉ body ∧
      eatMultiCommentHelp src pos end_ row col 1 = ((.MultiGood, pos + body.length + 2),
        after false (row, col) (body ++ closeMark))) ∨
    (∃ body r, t = body ++ 0x09 :: r ∧ Open body ∧ 0x09 ∉ body ∧
      eatMultiCommentHelp src pos end_ row col 1
        = ((.MultiTab, pos + body.length), after false (row, col) body)) ∨
    (Open t ∧ 0x09 ∉ t ∧
      ∃ p place, eatMultiCommentHelp src pos end_ row col 1 = ((.MultiEndless, p), place)) := by
  have hinside := eatMultiCommentHelp_inside h 0 row col
  generalize eatMultiCommentHelp src pos end_ row col (0 + 1) = result at hinside
  cases hinside with
  | closed hclose htab =>
    obtain ⟨hbalanced, ht⟩ := balanced_of_closeAt hclose
    exact Or.inl ⟨_, _, ht, hbalanced, htab, rfl⟩
  | tab ht htab hclose => exact Or.inr (Or.inl ⟨_, _, ht, open_iff.mpr hclose, htab, rfl⟩)
  | endless htab hclose => exact Or.inr (Or.inr ⟨open_iff.mpr hclose, htab, _, _, rfl⟩)

/-! ## The pieces of a gap -/

/-- The slice between two cursors is the text between them. -/
theorem slice_eq {a b : Text} {start : ℕ} (h : At src start end_ (a ++ b)) :
    slice start (start + a.length) src = a := by
  rw [slice, Nat.add_sub_cancel_left]
  exact h.take

/-- A line comment is passed over up to its newline. -/
theorem eat_line {body : Text} (h : At src pos end_ (body ++ t)) (hbody : 0x0A ∉ body)
    (ht : ∀ v ∈ t.head?, v = 0x0A) (startPos row col : ℕ) (comments : List FComment) :
    eat (.EatLineComment startPos) comments src pos end_ row col
      = eat (.EatLineComment startPos) comments src (pos + body.length) end_
        (after false (row, col) body).1 (after false (row, col) body).2 := by
  induction hn : body.length using Nat.strong_induction_on generalizing body pos row col with
  | _ n ih =>
    subst hn
    cases body with
    | nil => rfl
    | cons u body =>
      obtain ⟨g, l, heq, hg⟩ := exists_oneCodePoint u body
      obtain ⟨-, rfl⟩ := List.cons.inj heq
      have hne : u ≠ 0x0A := fun hu => hbody (hu ▸ List.mem_cons_self ..)
      have hl : 0x0A ∉ l := fun hmem =>
        hbody (List.mem_cons_of_mem u (List.mem_append_right g hmem))
      have hat : At src pos end_ ((u :: g) ++ (l ++ t)) := by
        rw [← List.append_assoc]
        exact h
      have hlow : ∀ v ∈ t.head?, ¬ IsLow v.toNat := by
        intro v hv
        obtain rfl := ht v hv
        decide
      have hplace := hg.after_eq (hg.not_mem (by decide) hne) (row, col)
      have hafter := hg.after_append (row, col)
      have hlt : l.length < (u :: (g ++ l)).length := by
        rw [List.length_cons, List.length_append]
        omega
      have hword : ¬ unsafeIndex src pos = 0x0A :=
        mt (unsafeIndex_eq_iff h (c := 0x0A) (by decide)).mp hne
      have hih := ih _ hlt hat.append hl row (col + 1) rfl
      rw [hplace] at hafter
      rw [eat.eq_def]
      dsimp only
      rw [if_neg h.lt_of_cons.not_ge, if_neg hword, (hg.append hlow).width hat, hih, Nat.add_assoc,
        ← List.length_append]
      exact congrArg (fun place : ℕ × ℕ => eat (.EatLineComment startPos) comments src
        (pos + ((u :: g) ++ l).length) end_ place.1 place.2) hafter.symm

/-- At the end the spaces are done. -/
theorem eat_end (h : end_ ≤ pos) (row col : ℕ) (comments : List FComment) :
    eat .EatSpaces comments src pos end_ row col = ((.Good, comments, pos), (row, col)) := by
  rw [eat.eq_def]
  exact if_pos h

/-- At a brace a comment may start. -/
theorem eat_brace (h : pos < end_) (hword : unsafeIndex src pos = 0x7B) {row col : ℕ}
    {comments : List FComment} :
    eat .EatSpaces comments src pos end_ row col
      = eat .EatMultiComment comments src pos end_ row col := by
  rw [eat.eq_def]
  dsimp only
  rw [if_neg h.not_ge, hword]
  rfl

/-- At a dash a line comment starts if another follows. -/
theorem eat_dash (h : pos < end_) (hword : unsafeIndex src pos = 0x2D) {row col : ℕ}
    {comments : List FComment} :
    eat .EatSpaces comments src pos end_ row col
      = if pos + 1 < end_ ∧ unsafeIndex src (pos + 1) = 0x2D then
          eat (.EatLineComment (pos + 2)) comments src (pos + 2) end_ row (col + 2)
        else ((.Good, comments, pos), (row, col)) := by
  rw [eat.eq_def]
  dsimp only
  rw [if_neg h.not_ge, hword]
  rfl

/-- A line comment after its dashes. -/
theorem eat_comment {body : Text} {ended : Bool} (hok : (Piece.line body ended).Ok t)
    (h : At src pos end_ (body ++ (if ended then [0x0A] else []) ++ t)) (row col : ℕ)
    (comments : List FComment) :
    eat (.EatLineComment pos) comments src pos end_ row col
      = eat .EatSpaces (.LineComment body :: comments) src
        (pos + (body ++ if ended then [0x0A] else []).length) end_
        (after false (row, col) (body ++ if ended then [0x0A] else [])).1
        (after false (row, col) (body ++ if ended then [0x0A] else [])).2 := by
  have hhead : ∀ v ∈ ((if ended then [0x0A] else []) ++ t : Text).head?, v = 0x0A := by
    cases ended with
    | false =>
      obtain rfl := hok.2 rfl
      intro v hv
      cases hv
    | true =>
      intro v hv
      exact (Option.some.inj hv).symm
  rw [List.append_assoc] at h
  rw [eat_line h hok.1 hhead]
  have hat := h.append
  have hslice := slice_eq h
  cases ended with
  | false =>
    obtain rfl := hok.2 rfl
    have hle : end_ ≤ pos + body.length := At.le_of_nil hat
    simp only [Bool.false_eq_true, if_false, List.append_nil]
    rw [eat_end hle, eat.eq_def]
    dsimp only
    rw [if_pos hle, hslice]
  | true =>
    have hat : At src (pos + body.length) end_ (0x0A :: t) := hat
    have hword : unsafeIndex src (pos + body.length) = 0x0A :=
      (unsafeIndex_eq_iff hat (c := 0x0A) (by decide)).mpr rfl
    have hlow : ∀ v ∈ ([0x0A] : Text).head?, ¬ IsLow v.toNat := by
      intro v hv
      obtain rfl := Option.some.inj hv
      decide
    simp only [if_true]
    rw [after_append hlow, after_newline, List.length_append, List.length_singleton,
      ← Nat.add_assoc, eat.eq_def]
    dsimp only
    rw [if_neg hat.lt_of_cons.not_ge, if_pos hword, hslice]

/-- At the opening of a block comment. -/
theorem eat_multi (h : At src pos end_ (openMark ++ u :: t)) (hdoc : u ≠ 0x7C) (row col : ℕ)
    (comments : List FComment) :
    eat .EatSpaces comments src pos end_ row col
      = match eatMultiCommentHelp src (pos + 2) end_ row (col + 2) 1 with
        | ((.MultiGood, newPos), (newRow, newCol)) =>
          eat .EatSpaces (blockComment (slice (pos + 2) (newPos - 2) src) :: comments) src newPos
            end_ newRow newCol
        | ((.MultiTab, newPos), (newRow, newCol)) => ((.HasTab, comments, newPos), (newRow, newCol))
        | ((.MultiEndless, _), _) => ((.EndlessMultiComment, comments, pos), (row, col)) := by
  have hword : unsafeIndex src pos = 0x7B := (unsafeIndex_eq_iff h (c := 0x7B) (by decide)).mpr rfl
  have hnext : unsafeIndex src (pos + 1) = 0x2D :=
    (unsafeIndex_eq_iff h.tail (c := 0x2D) (by decide)).mpr rfl
  have hthird : ¬ unsafeIndex src (pos + 2) = 0x7C :=
    mt (unsafeIndex_eq_iff h.tail.tail (c := 0x7C) (by decide)).mp hdoc
  have hlt : ¬ end_ ≤ pos + 2 := h.tail.tail.lt_of_cons.not_ge
  rw [eat_brace h.lt_of_cons hword, eat.eq_def]
  dsimp only
  rw [if_neg hlt, if_pos hnext, if_neg hthird]
  split
  · rename_i heq
    rw [heq]
    rfl
  · rename_i heq
    rw [heq]
  · rename_i heq
    rw [heq]

/-- A comment that is open at a tab is not balanced before it. -/
theorem open_before_tab {body body' rest rest' : Text} (htab : 0x09 ∉ body)
    (heq : body ++ closeMark ++ rest = body' ++ 0x09 :: rest') (hopen : Open body') :
    ¬ Balanced body := by
  intro hbalanced
  rcases List.append_eq_append_iff.mp heq with ⟨m, rfl, -⟩ | ⟨m, hm, htail⟩
  · exact hopen body m rfl hbalanced
  · cases m with
    | nil =>
      rw [List.append_nil] at hm
      exact hopen body [] (by rw [hm, List.append_nil]) hbalanced
    | cons v m =>
      -- the tab would be in the comment
      obtain ⟨rfl, -⟩ := List.cons.inj htail
      have hmem : 0x09 ∈ body ++ closeMark := by
        rw [hm]
        exact List.mem_append_right body' (List.mem_cons_self ..)
      rcases List.mem_append.mp hmem with hmem | hmem
      · exact htab hmem
      · exact absurd hmem (by decide)

/-- A balanced body without tabs is passed over together with the mark that closes it. -/
theorem eatMultiCommentHelp_balanced {body : Text} (h : At src pos end_ (body ++ closeMark ++ t))
    (hbalanced : Balanced body) (htab : 0x09 ∉ body) (row col : ℕ) :
    eatMultiCommentHelp src pos end_ row col 1 = ((.MultiGood, pos + body.length + 2),
      after false (row, col) (body ++ closeMark)) := by
  rcases eatMultiCommentHelp_cases h row col with hcase | hcase | hcase
  · obtain ⟨body', r, heq, hbalanced', -, hgood⟩ := hcase
    rw [balanced_unique hbalanced hbalanced' heq]
    exact hgood
  · obtain ⟨body', r, heq, hopen, -, -⟩ := hcase
    exact absurd hbalanced (open_before_tab htab heq hopen)
  · exact absurd hbalanced (hcase.1 body t rfl)

/-- The loop goes over a piece. -/
theorem eat_piece {p : Piece} (hok : p.Ok t) (h : At src pos end_ (p.text ++ t)) (row col : ℕ)
    (comments : List FComment) :
    eat .EatSpaces comments src pos end_ row col
      = eat .EatSpaces (p.comment.toList ++ comments) src (pos + p.text.length) end_
        (p.past (row, col)).1 (p.past (row, col)).2 := by
  -- a turn for a blank, the two comment loops for the others
  cases p with
  | space =>
    have hword := (unsafeIndex_eq_iff h (c := 0x20) (by decide)).mpr rfl
    rw [eat.eq_def]
    dsimp only
    rw [if_neg h.lt_of_cons.not_ge, hword]
    rfl
  | newline =>
    have hword := (unsafeIndex_eq_iff h (c := 0x0A) (by decide)).mpr rfl
    rw [eat.eq_def]
    dsimp only
    rw [if_neg h.lt_of_cons.not_ge, hword]
    rfl
  | carriageReturn =>
    have hword := (unsafeIndex_eq_iff h (c := 0x0D) (by decide)).mpr rfl
    rw [eat.eq_def]
    dsimp only
    rw [if_neg h.lt_of_cons.not_ge, hword]
    rfl
  | line body ended =>
    have hat : At src pos end_
        ([0x2D, 0x2D] ++ (body ++ (if ended then [0x0A] else []) ++ t)) := by
      simpa [Piece.text] using h
    have hword : unsafeIndex src pos = 0x2D :=
      (unsafeIndex_eq_iff hat (c := 0x2D) (by decide)).mpr rfl
    have hnext : unsafeIndex src (pos + 1) = 0x2D :=
      (unsafeIndex_eq_iff hat.tail (c := 0x2D) (by decide)).mpr rfl
    have hcomment := eat_comment hok hat.tail.tail row (col + 2) comments
    have hafter := after_plain_append (g := [0x2D, 0x2D]) (by simp [IsPlain])
      (body ++ if ended then [0x0A] else []) (row, col)
    rw [eat_dash hat.lt_of_cons hword, if_pos ⟨hat.tail.lt_of_cons, hnext⟩]
    refine hcomment.trans ?_
    have hlen : pos + 1 + 1 + (body ++ if ended then [0x0A] else []).length
        = pos + ([0x2D, 0x2D] ++ (body ++ if ended then [0x0A] else []) : Text).length := by
      simp
      omega
    rw [Piece.past, Piece.text, List.append_assoc, hafter, hlen]
    · rfl
    · intro heq
      cases heq
  | block body =>
    obtain ⟨hbalanced, htab, hdoc⟩ := hok
    have hat : At src pos end_ (openMark ++ (body ++ closeMark ++ t)) := by
      simpa [Piece.text] using h
    -- no bar stands after the mark, so it is no doc comment
    obtain ⟨u, r, hr, hu⟩ : ∃ u r, body ++ closeMark ++ t = u :: r ∧ u ≠ 0x7C := by
      cases body with
      | nil => exact ⟨0x2D, 0x7D :: t, rfl, by decide⟩
      | cons u body => exact ⟨u, body ++ closeMark ++ t, rfl, fun hu => hdoc (congrArg some hu)⟩
    have hinside : At src (pos + 2) end_ (body ++ closeMark ++ t) := hat.append
    have hbody := eatMultiCommentHelp_balanced hinside hbalanced htab row (col + 2)
    have hslice : slice (pos + 2) (pos + 2 + body.length) src = body :=
      slice_eq (b := closeMark ++ t) (by rwa [← List.append_assoc])
    have hafter := after_plain_append (g := openMark) (by simp [IsPlain]) (body ++ closeMark)
      (row, col)
    have hlen : pos + 2 + body.length + 2 = pos + (openMark ++ (body ++ closeMark)).length := by
      rw [List.length_append, List.length_append]
      change _ = pos + (2 + (body.length + 2))
      omega
    rw [eat_multi (u := u) (t := r) (by rw [← hr]; exact hat) hu, hbody]
    dsimp only
    rw [Nat.add_sub_cancel, hslice, Piece.past, Piece.text, List.append_assoc, hafter, hlen]
    · rfl
    · intro heq
      cases heq

/-- The row and the column past pieces. -/
theorem eat_gap {ps : List Piece} (hgap : IsGap t ps)
    (h : At src pos end_ (ps.flatMap Piece.text ++ t)) (place : ℕ × ℕ) (comments : List FComment) :
    eat .EatSpaces comments src pos end_ place.1 place.2
      = eat .EatSpaces ((ps.filterMap Piece.comment).reverse ++ comments) src
        (pos + (ps.flatMap Piece.text).length) end_ (ps.foldl Piece.past place).1
        (ps.foldl Piece.past place).2 := by
  induction ps generalizing pos place comments with
  | nil => rfl
  | cons p ps ih =>
    rw [flatMap_text_cons] at h
    rw [eat_piece hgap.1 h, Prod.mk.eta, ih hgap.2 h.append, List.foldl_cons, List.flatMap_cons,
      List.length_append, Nat.add_assoc, List.filterMap_cons]
    cases p.comment with
    | none => rfl
    | some comment => simp

/-! ## The end of a gap -/

/-- What stops the loop before the text `rest`. -/
inductive Stopped (rest : Text) (pos : ℕ) (place : ℕ × ℕ) (comments : List FComment) :
    (Status × List FComment × ℕ) × (ℕ × ℕ) → Prop where
  | good (htab : ¬ ∃ inside, TabAfter inside rest) (hendless : ¬ Endless rest) :
      Stopped rest pos place comments ((.Good, comments, pos), place)
  | tab {inside : Text} (h : TabAfter inside rest) :
      Stopped rest pos place comments
        ((.HasTab, comments, pos + inside.length), after false place inside)
  | endless (h : Endless rest) :
      Stopped rest pos place comments ((.EndlessMultiComment, comments, pos), place)

/-- Neither a tab nor a block comment is next. -/
theorem good_of {rest : Text} {place : ℕ × ℕ} {comments : List FComment}
    (htab : rest.head? ≠ some 0x09)
    (hopen : ∀ l, rest = openMark ++ l → l = [] ∨ l.head? = some 0x7C) :
    Stopped rest pos place comments ((.Good, comments, pos), place) := by
  refine .good ?_ ?_
  · rintro ⟨inside, ⟨r, rfl⟩, rfl | ⟨body, rfl, -, -, hdoc⟩⟩
    · exact htab rfl
    · rcases hopen (body ++ 0x09 :: r) (List.append_assoc ..) with hnil | hhead
      · exact absurd hnil (by simp)
      · cases body with
        | nil => cases hhead
        | cons u body => exact hdoc hhead
  · rintro ⟨⟨body, rfl, -, -, hdoc⟩, hlen⟩
    rcases hopen body rfl with rfl | hhead
    · exact absurd hlen (by decide)
    · exact hdoc hhead

/-- At a tab the spaces fail. -/
theorem eat_tab (h : pos < end_) (hword : unsafeIndex src pos = 0x09) {row col : ℕ}
    {comments : List FComment} :
    eat .EatSpaces comments src pos end_ row col = ((.HasTab, comments, pos), (row, col)) := by
  rw [eat.eq_def]
  dsimp only
  rw [if_neg h.not_ge, hword]
  rfl

/-- At any other unit the spaces are done. -/
theorem eat_other (h : pos < end_) (hspace : unsafeIndex src pos ≠ 0x20)
    (hnewline : unsafeIndex src pos ≠ 0x0A) (hreturn : unsafeIndex src pos ≠ 0x0D)
    (htab : unsafeIndex src pos ≠ 0x09) (hbrace : unsafeIndex src pos ≠ 0x7B)
    (hdash : unsafeIndex src pos ≠ 0x2D) {row col : ℕ} {comments : List FComment} :
    eat .EatSpaces comments src pos end_ row col = ((.Good, comments, pos), (row, col)) := by
  rw [eat.eq_def]
  dsimp only
  rw [if_neg h.not_ge]
  split <;> first | contradiction | rfl

/-- After two dashes a line comment is next. -/
theorem exists_line (l : Text) : ∃ body ended r,
    l = body ++ (if ended then [0x0A] else []) ++ r ∧ (Piece.line body ended).Ok r := by
  induction l with
  | nil => exact ⟨[], false, [], rfl, List.not_mem_nil, fun _ => rfl⟩
  | cons u l ih =>
    by_cases hu : u = 0x0A
    · subst hu
      exact ⟨[], true, l, rfl, List.not_mem_nil, fun he => by cases he⟩
    · obtain ⟨body, ended, r, heq, hbody, hended⟩ := ih
      refine ⟨u :: body, ended, r, congrArg (u :: ·) heq, ?_, hended⟩
      rw [List.mem_cons, not_or]
      exact ⟨fun he => hu he.symm, hbody⟩

/-- Where a block comment may be next. -/
theorem eat_ends_brace (hends : Ends (0x7B :: t)) (h : At src pos end_ (0x7B :: t)) (place : ℕ × ℕ)
    (comments : List FComment) :
    Stopped (0x7B :: t) pos place comments
      (eat .EatSpaces comments src pos end_ place.1 place.2) := by
  have hword : unsafeIndex src pos = 0x7B := (unsafeIndex_eq_iff h (c := 0x7B) (by decide)).mpr rfl
  have hhead : (0x7B :: t : Text).head? ≠ some 0x09 := by simp
  have hlen := h.length h.lt_of_cons.le
  by_cases hopen : ∃ u l, t = 0x2D :: u :: l ∧ u ≠ 0x7C
  · -- a block comment
    obtain ⟨u, l, rfl, hdoc⟩ := hopen
    rw [eat_multi h hdoc]
    -- it is whole, which `hends` excludes, or stops at a tab, or never ends
    rcases eatMultiCommentHelp_cases h.tail.tail place.1 (place.2 + 2) with hcase | hcase | hcase
    · obtain ⟨body, r, heq, hbalanced, htab, -⟩ := hcase
      refine absurd ?_ (hends (.block body) r ⟨hbalanced, htab, ?_⟩)
      · rw [heq, Piece.text, List.append_assoc, List.append_assoc, List.append_assoc]
        rfl
      · intro hbody
        cases body with
        | nil => cases hbody
        | cons v body => exact hdoc ((List.cons.inj heq).1.trans (Option.some.inj hbody))
    · obtain ⟨body, r, heq, hopen, htab, hmulti⟩ := hcase
      have hinside : OpenComment (openMark ++ body) := by
        refine ⟨body, rfl, hopen, htab, fun hbody => ?_⟩
        cases body with
        | nil => cases hbody
        | cons v body => exact hdoc ((List.cons.inj heq).1.trans (Option.some.inj hbody))
      have hafter := after_plain_append (g := openMark) (by simp [IsPlain]) body place
      have hpos : pos + 1 + 1 + body.length = pos + (openMark ++ body).length := by
        rw [List.length_append, ← Nat.add_assoc]
        rfl
      have hrest : ∃ r', (0x7B :: 0x2D :: u :: l : Text) = openMark ++ body ++ 0x09 :: r' :=
        ⟨r, by rw [heq, List.append_assoc]; rfl⟩
      have hstopped : Stopped (0x7B :: 0x2D :: u :: l) pos place comments _ :=
        .tab ⟨hrest, Or.inr hinside⟩
      rw [hafter, ← hpos] at hstopped
      rw [hmulti]
      exact hstopped
    · obtain ⟨hopen, htab, p, place', hmulti⟩ := hcase
      rw [hmulti]
      refine .endless ⟨⟨u :: l, rfl, hopen, htab, fun hu => hdoc (Option.some.inj hu)⟩, ?_⟩
      simp
  · have hrest : ∀ l, (0x7B :: t : Text) = openMark ++ l → l = [] ∨ l.head? = some 0x7C := by
      intro l hl
      cases l with
      | nil => exact Or.inl rfl
      | cons u l =>
        by_contra hne
        exact hopen ⟨u, l, (List.cons.inj hl).2, fun hu => hne (Or.inr (congrArg some hu))⟩
    have hgood : Stopped (0x7B :: t) pos place comments _ := good_of hhead hrest
    rw [eat_brace h.lt_of_cons hword, eat.eq_def]
    dsimp only
    -- a brace alone, or one that opens a doc comment, is no part of the gap
    by_cases hend : end_ ≤ pos + 2
    · rw [if_pos hend]
      exact hgood
    by_cases hnext : unsafeIndex src (pos + 1) = 0x2D
    · obtain ⟨v, w, l, rfl⟩ : ∃ v w l, t = v :: w :: l := by
        rcases t with _ | ⟨v, _ | ⟨w, l⟩⟩
        · exact absurd hlen (by simp; omega)
        · exact absurd hlen (by simp; omega)
        · exact ⟨v, w, l, rfl⟩
      obtain rfl := (unsafeIndex_eq_iff h.tail (c := 0x2D) (by decide)).mp hnext
      have hthird : unsafeIndex src (pos + 2) = 0x7C := by
        refine (unsafeIndex_eq_iff h.tail.tail (c := 0x7C) (by decide)).mpr ?_
        by_contra hw
        exact hopen ⟨w, l, rfl, hw⟩
      rw [if_neg hend, if_pos hnext, if_pos hthird]
      exact hgood
    · rw [if_neg hend, if_neg hnext]
      exact hgood

/-- The loop stops where no piece is next. -/
theorem eat_ends (hends : Ends t) (h : At src pos end_ t) (place : ℕ × ℕ)
    (comments : List FComment) :
    Stopped t pos place comments (eat .EatSpaces comments src pos end_ place.1 place.2) := by
  cases t with
  | nil =>
    rw [eat_end h.le_of_nil]
    exact good_of (by simp) (fun l hl => by cases hl)
  | cons u t =>
    have hne : ∀ {c : UInt16}, c.toNat < 0xD800 → u ≠ c → unsafeIndex src pos ≠ c.toNat :=
      fun hc hu => mt (unsafeIndex_eq_iff h hc).mp hu
    by_cases hbrace : u = 0x7B
    · subst hbrace
      exact eat_ends_brace hends h place comments
    -- away from a tab and a brace, the loop stops without an error
    have hgood : u ≠ 0x09 →
        Stopped (u :: t) pos place comments ((.Good, comments, pos), place) := by
      refine fun htab => good_of (fun hu => htab (Option.some.inj hu)) ?_
      intro l hl
      exact absurd (List.cons.inj hl).1 hbrace
    by_cases hdash : u = 0x2D
    · subst hdash
      have hword : unsafeIndex src pos = 0x2D :=
        (unsafeIndex_eq_iff h (c := 0x2D) (by decide)).mpr rfl
      rw [eat_dash h.lt_of_cons hword, if_neg]
      · exact hgood (by decide)
      · -- otherwise a line comment is next
        rintro ⟨hlt, hnext⟩
        cases t with
        | nil => exact absurd h.tail.le_of_nil hlt.not_ge
        | cons v l =>
          obtain rfl := (unsafeIndex_eq_iff h.tail (c := 0x2D) (by decide)).mp hnext
          obtain ⟨body, ended, r, rfl, hok⟩ := exists_line l
          exact hends _ r hok (by simp [Piece.text])
    by_cases htab : u = 0x09
    · subst htab
      have hword : unsafeIndex src pos = 0x09 :=
        (unsafeIndex_eq_iff h (c := 0x09) (by decide)).mpr rfl
      rw [eat_tab h.lt_of_cons hword]
      exact .tab ⟨⟨t, (List.nil_append _).symm⟩, Or.inl rfl⟩
    -- a blank would be a piece
    · rw [eat_other h.lt_of_cons (hne (c := 0x20) (by decide) ?_) (hne (c := 0x0A) (by decide) ?_)
        (hne (c := 0x0D) (by decide) ?_) (hne (c := 0x09) (by decide) htab)
        (hne (c := 0x7B) (by decide) hbrace) (hne (c := 0x2D) (by decide) hdash)]
      · exact hgood htab
      · rintro rfl
        exact hends .space t trivial rfl
      · rintro rfl
        exact hends .newline t trivial rfl
      · rintro rfl
        exact hends .carriageReturn t trivial rfl

/-! ## What the parsers do -/

/-- The text from a state's position to its end. -/
def left (s : State) : Text := (s.src.drop s.pos).take (s.end_ - s.pos)

/-- Whatever the errors are, the gap is read. -/
def ChompReads (s : State) (comments : List FComment) (s' : State) : Prop :=
  ∀ (x : Type) (toError : Space → ℕ → ℕ → x), chomp toError s = .cok comments s'

/-- Chomping a gap fails with this problem, at this place. -/
def ChompFails (s : State) (problem : Space) (place : ℕ × ℕ) : Prop :=
  ∀ (x : Type) (toError : Space → ℕ → ℕ → x),
    chomp toError s = .cerr place.1 place.2 (toError problem)

/-- The doc comment is read, and the state left behind. -/
def DocReads (s : State) (comment : Snippet) (s' : State) : Prop :=
  ∀ (x : Type) (toExpectation : ℕ → ℕ → x) (toSpaceError : Space → ℕ → ℕ → x),
    docComment toExpectation toSpaceError s = .cok comment s'

/-- The doc comment fails with this problem, at this place. -/
def DocFails (s : State) (problem : Space) (place : ℕ × ℕ) : Prop :=
  ∀ (x : Type) (toExpectation : ℕ → ℕ → x) (toSpaceError : Space → ℕ → ℕ → x),
    docComment toExpectation toSpaceError s = .cerr place.1 place.2 (toSpaceError problem)

/-- No doc comment is next. -/
def DocAbsent (s : State) : Prop :=
  ∀ (x : Type) (toExpectation : ℕ → ℕ → x) (toSpaceError : Space → ℕ → ℕ → x),
    docComment toExpectation toSpaceError s = .eerr s.row s.col toExpectation

/-- The state past a text that ends at a place. -/
def moved (s : State) (text : Text) (place : ℕ × ℕ) : State :=
  { s with pos := s.pos + text.length, row := place.1, col := place.2 }

/-- The place past the pieces of a gap. -/
def placeAfter (s : State) (ps : List Piece) : ℕ × ℕ := ps.foldl Piece.past (s.row, s.col)

/-- The gap is read up to where no piece is next. -/
theorem chomp_outcome {s : State} (inside : s.end_ ≤ s.src.length) {ps : List Piece} {rest : Text}
    (hgap : GapOf (left s) ps rest) (hends : Ends rest) :
    (¬ (∃ t, TabAfter t rest) ∧ ¬ Endless rest ∧ ChompReads s (ps.filterMap Piece.comment)
      (moved s (ps.flatMap Piece.text) (placeAfter s ps))) ∨
    (∃ t, TabAfter t rest ∧ ChompFails s .HasTab (after false (placeAfter s ps) t)) ∨
    (Endless rest ∧ ChompFails s .EndlessMultiComment (placeAfter s ps)) := by
  have hat : At s.src s.pos s.end_ (ps.flatMap Piece.text ++ rest) := ⟨inside, hgap.1⟩
  have heat := eat_gap hgap.2 hat (s.row, s.col) []
  have hstopped := eat_ends hends hat.append (placeAfter s ps)
    ((ps.filterMap Piece.comment).reverse ++ [])
  rw [placeAfter, ← heat] at hstopped
  generalize hresult : eat .EatSpaces [] s.src s.pos s.end_ (s.row, s.col).1 (s.row, s.col).2
    = result at hstopped
  cases hstopped with
  | good htab hendless =>
    refine Or.inl ⟨htab, hendless, fun x toError => ?_⟩
    rw [chomp, hresult, List.append_nil]
    dsimp only
    rw [List.reverse_reverse]
    rfl
  | @tab t htab =>
    refine Or.inr (Or.inl ⟨t, htab, fun x toError => ?_⟩)
    rw [chomp, hresult]
    rfl
  | endless hendless =>
    refine Or.inr (Or.inr ⟨hendless, fun x toError => ?_⟩)
    rw [chomp, hresult]
    rfl

/-- A parser fails with one problem at one place. -/
theorem fails_unique {a : Type} {f : (x : Type) → (Space → ℕ → ℕ → x) → PStep x a}
    {problem problem' : Space} {place place' : ℕ × ℕ}
    (h : ∀ x toError, f x toError = .cerr place.1 place.2 (toError problem))
    (h' : ∀ x toError, f x toError = .cerr place'.1 place'.2 (toError problem')) :
    problem = problem' ∧ place = place' := by
  have heq := (h Space fun p _ _ => p).symm.trans (h' Space fun p _ _ => p)
  obtain ⟨hrow, hcol, hproblem⟩ := PStep.cerr.inj heq
  exact ⟨congrFun (congrFun hproblem 0) 0, Prod.ext hrow hcol⟩

theorem not_fails_of_reads {a : Type} {f : (x : Type) → (Space → ℕ → ℕ → x) → PStep x a}
    {value : a} {s' : State} {problem : Space} {place : ℕ × ℕ}
    (h : ∀ x toError, f x toError = .cok value s')
    (h' : ∀ x toError, f x toError = .cerr place.1 place.2 (toError problem)) : False := by
  have heq := (h Space fun p _ _ => p).symm.trans (h' Space fun p _ _ => p)
  cases heq

/-- Spaces are read exactly when the longest run of pieces stops at neither a tab nor a comment
    without an end. -/
theorem chompReads_iff {s s' : State} (inside : s.end_ ≤ s.src.length)
    {comments : List FComment} :
    ChompReads s comments s' ↔ ∃ ps rest, Longest (left s) ps rest ∧
      ¬ (∃ t, TabAfter t rest) ∧ ¬ Endless rest ∧ comments = ps.filterMap Piece.comment ∧
      s' = moved s (ps.flatMap Piece.text) (placeAfter s ps) := by
  obtain ⟨ps, rest, hgap, hends⟩ := exists_ends (left s)
  constructor
  · intro h
    rcases chomp_outcome inside hgap hends with ⟨htab, hendless, hreads⟩ | ⟨t, -, hfails⟩ |
      ⟨-, hfails⟩
    · obtain ⟨hcomments, hstate⟩ := PStep.cok.inj ((h Unit fun _ _ _ => ()).symm.trans
        (hreads Unit fun _ _ _ => ()))
      exact ⟨ps, rest, longest_of_ends hgap hends, htab, hendless, hcomments, hstate⟩
    · exact absurd hfails (not_fails_of_reads h)
    · exact absurd hfails (not_fails_of_reads h)
  · rintro ⟨ps', rest', hlongest, htab, hendless, rfl, rfl⟩
    obtain ⟨rfl, rfl⟩ := gap_unique hgap hends hlongest
    rcases chomp_outcome inside hgap hends with ⟨-, -, hreads⟩ | ⟨t, ht, -⟩ | ⟨h, -⟩
    · exact hreads
    · exact absurd ⟨t, ht⟩ htab
    · exact absurd h hendless

/-- They fail for a tab exactly when one stands after that run. -/
theorem chompFails_tab_iff {s : State} (inside : s.end_ ≤ s.src.length) {place : ℕ × ℕ} :
    ChompFails s .HasTab place ↔ ∃ ps rest t, Longest (left s) ps rest ∧ TabAfter t rest ∧
      place = after false (placeAfter s ps) t := by
  obtain ⟨ps, rest, hgap, hends⟩ := exists_ends (left s)
  constructor
  · intro h
    rcases chomp_outcome inside hgap hends with ⟨-, -, hreads⟩ | ⟨t, ht, hfails⟩ | ⟨-, hfails⟩
    · exact absurd h (not_fails_of_reads hreads)
    · obtain ⟨-, hplace⟩ := fails_unique h hfails
      exact ⟨ps, rest, t, longest_of_ends hgap hends, ht, hplace⟩
    · obtain ⟨hproblem, -⟩ := fails_unique h hfails
      cases hproblem
  · rintro ⟨ps', rest', t, hlongest, ht, rfl⟩
    obtain ⟨rfl, rfl⟩ := gap_unique hgap hends hlongest
    rcases chomp_outcome inside hgap hends with ⟨htab, -, -⟩ | ⟨t', ht', hfails⟩ | ⟨hendless, -⟩
    · exact absurd ⟨t, ht⟩ htab
    · obtain ⟨r, hr⟩ := ht.1
      obtain ⟨r', hr'⟩ := ht'.1
      rw [tab_unique (tabAfter_no_tab ht) (tabAfter_no_tab ht') (hr.symm.trans hr')]
      exact hfails
    · exact absurd hendless (tabAfter_not_endless ht)

/-- They fail for a comment without an end exactly when one stands there. -/
theorem chompFails_endless_iff {s : State} (inside : s.end_ ≤ s.src.length) {place : ℕ × ℕ} :
    ChompFails s .EndlessMultiComment place ↔ ∃ ps rest, Longest (left s) ps rest ∧
      Endless rest ∧ place = placeAfter s ps := by
  obtain ⟨ps, rest, hgap, hends⟩ := exists_ends (left s)
  constructor
  · intro h
    rcases chomp_outcome inside hgap hends with ⟨-, -, hreads⟩ | ⟨t, -, hfails⟩ |
      ⟨hendless, hfails⟩
    · exact absurd h (not_fails_of_reads hreads)
    · obtain ⟨hproblem, -⟩ := fails_unique h hfails
      cases hproblem
    · obtain ⟨-, hplace⟩ := fails_unique h hfails
      exact ⟨ps, rest, longest_of_ends hgap hends, hendless, hplace⟩
  · rintro ⟨ps', rest', hlongest, hendless, rfl⟩
    obtain ⟨rfl, rfl⟩ := gap_unique hgap hends hlongest
    rcases chomp_outcome inside hgap hends with ⟨-, hnot, -⟩ | ⟨t, ht, -⟩ | ⟨-, hfails⟩
    · exact absurd hendless hnot
    · exact absurd hendless (tabAfter_not_endless ht)
    · exact hfails

/-! ## Doc comments -/

/-- A doc comment is read to where its brackets balance. -/
theorem docComment_outcome {s : State} (inside : s.end_ ≤ s.src.length) :
    (¬ docMark <+: left s ∧ DocAbsent s) ∨
    (∃ body rest, left s = docMark ++ (body ++ closeMark ++ rest) ∧ Balanced body ∧ 0x09 ∉ body ∧
      DocReads s ⟨s.src, s.pos + 3, body.length, s.row, s.col + 3⟩
        (moved s (docMark ++ body ++ closeMark)
          (after false (s.row, s.col) (docMark ++ body ++ closeMark)))) ∨
    (∃ body rest, left s = docMark ++ (body ++ 0x09 :: rest) ∧ Open body ∧ 0x09 ∉ body ∧
      DocFails s .HasTab (after false (s.row, s.col) (docMark ++ body))) ∨
    (∃ body, left s = docMark ++ body ∧ Open body ∧ 0x09 ∉ body ∧
      DocFails s .EndlessMultiComment (s.row, s.col)) := by
  by_cases hdoc : docMark <+: left s
  · right
    obtain ⟨t, ht⟩ := hdoc
    have hat : At s.src s.pos s.end_ (docMark ++ t) := ⟨inside, ht.symm⟩
    have hfirst := (unsafeIndex_eq_iff hat (c := 0x7B) (by decide)).mpr rfl
    have hsecond := (unsafeIndex_eq_iff hat.tail (c := 0x2D) (by decide)).mpr rfl
    have hthird := (unsafeIndex_eq_iff hat.tail.tail (c := 0x7C) (by decide)).mpr rfl
    have hafter := fun l => after_plain_append (g := docMark) (by simp [IsPlain]) l (s.row, s.col)
    have hcond : s.pos + 3 ≤ s.end_ ∧ unsafeIndex s.src s.pos = 0x7B ∧
        unsafeIndex s.src (s.pos + 1) = 0x2D ∧ unsafeIndex s.src (s.pos + 2) = 0x7C :=
      ⟨hat.tail.tail.lt_of_cons, hfirst, hsecond, hthird⟩
    have hinside : At s.src (s.pos + 3) s.end_ t := hat.append
    -- after the mark the body is scanned as that of any block comment
    rcases eatMultiCommentHelp_cases hinside s.row (s.col + 3) with
      ⟨body, r, rfl, hbalanced, htab, hmulti⟩ | ⟨body, r, rfl, hopen, htab, hmulti⟩ |
      ⟨hopen, htab, p, place, hmulti⟩
    · refine Or.inl ⟨body, r, ?_, hbalanced, htab, fun x toExpectation toSpaceError => ?_⟩
      · exact ht.symm
      · have hlen : s.pos + 3 + body.length + 2 - (s.pos + 3) - 2 = body.length := by omega
        have hpos : s.pos + 3 + body.length + 2
            = s.pos + (docMark ++ (body ++ closeMark)).length := by
          rw [List.length_append, List.length_append]
          change _ = s.pos + (3 + (body.length + 2))
          omega
        rw [docComment, if_pos hcond]
        dsimp only
        rw [hmulti]
        dsimp only
        rw [hlen, moved, List.append_assoc, hafter, ← hpos]
        rfl
    · refine Or.inr (Or.inl ⟨body, r, ?_, hopen, htab, fun x toExpectation toSpaceError => ?_⟩)
      · exact ht.symm
      · rw [docComment, if_pos hcond, hafter]
        dsimp only
        rw [hmulti]
        rfl
    · refine Or.inr (Or.inr ⟨t, ht.symm, hopen, htab, fun x toExpectation toSpaceError => ?_⟩)
      rw [docComment, if_pos hcond]
      dsimp only
      rw [hmulti]
  · refine Or.inl ⟨hdoc, fun x toExpectation toSpaceError => ?_⟩
    rw [docComment, if_neg]
    rintro ⟨hend, hfirst, hsecond, hthird⟩
    have hat : At s.src s.pos s.end_ (left s) := ⟨inside, rfl⟩
    have hlen := hat.length (by omega)
    -- the three units the code looks at are those of the mark
    rcases hleft : left s with _ | ⟨u, _ | ⟨v, _ | ⟨w, t⟩⟩⟩
    · rw [hleft] at hlen
      exact absurd hlen (by simp; omega)
    · rw [hleft] at hlen
      exact absurd hlen (by simp; omega)
    · rw [hleft] at hlen
      exact absurd hlen (by simp; omega)
    · rw [hleft] at hat
      obtain rfl := (unsafeIndex_eq_iff hat (c := 0x7B) (by decide)).mp hfirst
      obtain rfl := (unsafeIndex_eq_iff hat.tail (c := 0x2D) (by decide)).mp hsecond
      obtain rfl := (unsafeIndex_eq_iff hat.tail.tail (c := 0x7C) (by decide)).mp hthird
      exact hdoc ⟨t, hleft.symm⟩

/-- `docComment` with errors of one kind. -/
def docOf (s : State) (x : Type) (toSpaceError : Space → ℕ → ℕ → x) : PStep x Snippet :=
  docComment (toSpaceError .HasTab) toSpaceError s

/-- A doc comment is read exactly when its mark, a balanced body without tabs and the closing
    mark stand at the cursor. -/
theorem docReads_iff {s s' : State} (inside : s.end_ ≤ s.src.length) {comment : Snippet} :
    DocReads s comment s' ↔ ∃ body rest, left s = docMark ++ (body ++ closeMark ++ rest) ∧
      Balanced body ∧ 0x09 ∉ body ∧
      comment = ⟨s.src, s.pos + 3, body.length, s.row, s.col + 3⟩ ∧
      s' = moved s (docMark ++ body ++ closeMark)
        (after false (s.row, s.col) (docMark ++ body ++ closeMark)) := by
  constructor
  · intro h
    have hdoc : ∀ x toError, docOf s x toError = .cok comment s' := fun x _ => h x _ _
    rcases docComment_outcome inside with ⟨-, habsent⟩ |
      ⟨body, rest, heq, hbalanced, htab, hreads⟩ | ⟨_, _, -, -, -, hfails⟩ | ⟨_, -, -, -, hfails⟩
    · have hstep := (h Unit (fun _ _ => ()) fun _ _ _ => ()).symm.trans
        (habsent Unit (fun _ _ => ()) fun _ _ _ => ())
      cases hstep
    · obtain ⟨hcomment, hstate⟩ := PStep.cok.inj ((hdoc Unit fun _ _ _ => ()).symm.trans
        (hreads Unit _ fun _ _ _ => ()))
      exact ⟨body, rest, heq, hbalanced, htab, hcomment, hstate⟩
    · exact absurd (fun x toError => hfails x _ toError) (not_fails_of_reads hdoc)
    · exact absurd (fun x toError => hfails x _ toError) (not_fails_of_reads hdoc)
  · rintro ⟨body, rest, heq, hbalanced, htab, rfl, rfl⟩
    rcases docComment_outcome inside with ⟨hnot, -⟩ | ⟨body', rest', heq', hbalanced', -, hreads⟩ |
      ⟨body', rest', heq', hopen, htab', -⟩ | ⟨body', heq', hopen, -, -⟩
    · exact absurd ⟨body ++ closeMark ++ rest, heq.symm⟩ hnot
    · have hbody : body ++ closeMark ++ rest = body' ++ closeMark ++ rest' :=
        List.append_cancel_left (heq.symm.trans heq')
      rw [balanced_unique hbalanced hbalanced' hbody]
      exact hreads
    · have hbody : body ++ closeMark ++ rest = body' ++ 0x09 :: rest' :=
        List.append_cancel_left (heq.symm.trans heq')
      exact absurd hbalanced (open_before_tab htab hbody hopen)
    · have hbody : body' = body ++ closeMark ++ rest :=
        List.append_cancel_left (heq'.symm.trans heq)
      exact absurd hbalanced (hopen body rest hbody)

/-- There is none exactly when the mark is not there. -/
theorem docAbsent_iff {s : State} (inside : s.end_ ≤ s.src.length) :
    DocAbsent s ↔ ¬ docMark <+: left s := by
  constructor
  · rintro h ⟨t, ht⟩
    have hdoc := h Unit (fun _ _ => ()) fun _ _ _ => ()
    rcases docComment_outcome inside with ⟨hnot, -⟩ | ⟨_, _, -, -, -, hreads⟩ |
      ⟨_, _, -, -, -, hfails⟩ | ⟨_, -, -, -, hfails⟩
    · exact hnot ⟨t, ht⟩
    · rw [hreads Unit _ fun _ _ _ => ()] at hdoc
      cases hdoc
    · rw [hfails Unit _ fun _ _ _ => ()] at hdoc
      cases hdoc
    · rw [hfails Unit _ fun _ _ _ => ()] at hdoc
      cases hdoc
  · intro hnot
    rcases docComment_outcome inside with ⟨-, habsent⟩ | ⟨body, rest, heq, -⟩ |
      ⟨body, rest, heq, -⟩ | ⟨body, heq, -⟩
    · exact habsent
    · exact absurd ⟨body ++ closeMark ++ rest, heq.symm⟩ hnot
    · exact absurd ⟨body ++ 0x09 :: rest, heq.symm⟩ hnot
    · exact absurd ⟨body, heq.symm⟩ hnot

/-- It fails for a tab exactly when one stands inside the open comment. -/
theorem docFails_tab_iff {s : State} (inside : s.end_ ≤ s.src.length) {place : ℕ × ℕ} :
    DocFails s .HasTab place ↔ ∃ body rest, left s = docMark ++ (body ++ 0x09 :: rest) ∧
      Open body ∧ 0x09 ∉ body ∧ place = after false (s.row, s.col) (docMark ++ body) := by
  constructor
  · intro h
    have hdoc : ∀ x toError, docOf s x toError = .cerr place.1 place.2 (toError .HasTab) :=
      fun x _ => h x _ _
    rcases docComment_outcome inside with ⟨-, habsent⟩ | ⟨_, _, -, -, -, hreads⟩ |
      ⟨body, rest, heq, hopen, htab, hfails⟩ | ⟨_, -, -, -, hfails⟩
    · have hstep := (h Unit (fun _ _ => ()) fun _ _ _ => ()).symm.trans
        (habsent Unit (fun _ _ => ()) fun _ _ _ => ())
      cases hstep
    · exact absurd hdoc (not_fails_of_reads fun x toError => hreads x _ toError)
    · obtain ⟨-, hplace⟩ := fails_unique hdoc fun x toError => hfails x _ toError
      exact ⟨body, rest, heq, hopen, htab, hplace⟩
    · obtain ⟨hproblem, -⟩ := fails_unique hdoc fun x toError => hfails x _ toError
      cases hproblem
  · rintro ⟨body, rest, heq, hopen, htab, rfl⟩
    rcases docComment_outcome inside with ⟨hnot, -⟩ | ⟨body', rest', heq', hbalanced', htab', -⟩ |
      ⟨body', rest', heq', -, htab', hfails⟩ | ⟨body', heq', -, htab', -⟩
    · exact absurd ⟨body ++ 0x09 :: rest, heq.symm⟩ hnot
    · have hbody : body' ++ closeMark ++ rest' = body ++ 0x09 :: rest :=
        List.append_cancel_left (heq'.symm.trans heq)
      exact absurd hbalanced' (open_before_tab htab' hbody hopen)
    · have hbody : body ++ 0x09 :: rest = body' ++ 0x09 :: rest' :=
        List.append_cancel_left (heq.symm.trans heq')
      rw [tab_unique htab htab' hbody]
      exact hfails
    · have hbody : body' = body ++ 0x09 :: rest :=
        List.append_cancel_left (heq'.symm.trans heq)
      refine absurd ?_ htab'
      rw [hbody]
      exact List.mem_append_right body (List.mem_cons_self ..)

/-- It fails for its end exactly when the text runs out inside the open comment. -/
theorem docFails_endless_iff {s : State} (inside : s.end_ ≤ s.src.length) {place : ℕ × ℕ} :
    DocFails s .EndlessMultiComment place ↔ ∃ body, left s = docMark ++ body ∧ Open body ∧
      0x09 ∉ body ∧ place = (s.row, s.col) := by
  constructor
  · intro h
    have hdoc : ∀ x toError, docOf s x toError
        = .cerr place.1 place.2 (toError .EndlessMultiComment) := fun x _ => h x _ _
    rcases docComment_outcome inside with ⟨-, habsent⟩ | ⟨_, _, -, -, -, hreads⟩ |
      ⟨_, _, -, -, -, hfails⟩ | ⟨body, heq, hopen, htab, hfails⟩
    · have hstep := (h Unit (fun _ _ => ()) fun _ _ _ => ()).symm.trans
        (habsent Unit (fun _ _ => ()) fun _ _ _ => ())
      cases hstep
    · exact absurd hdoc (not_fails_of_reads fun x toError => hreads x _ toError)
    · obtain ⟨hproblem, -⟩ := fails_unique hdoc fun x toError => hfails x _ toError
      cases hproblem
    · obtain ⟨-, hplace⟩ := fails_unique hdoc fun x toError => hfails x _ toError
      exact ⟨body, heq, hopen, htab, hplace⟩
  · rintro ⟨body, heq, hopen, htab, rfl⟩
    rcases docComment_outcome inside with ⟨hnot, -⟩ | ⟨body', rest', heq', hbalanced', -⟩ |
      ⟨body', rest', heq', -⟩ | ⟨_, -, -, -, hfails⟩
    · exact absurd ⟨body, heq.symm⟩ hnot
    · have hbody : body = body' ++ closeMark ++ rest' :=
        List.append_cancel_left (heq.symm.trans heq')
      exact absurd hbalanced' (hopen body' rest' hbody)
    · have hbody : body = body' ++ 0x09 :: rest' :=
        List.append_cancel_left (heq.symm.trans heq')
      refine absurd ?_ htab
      rw [hbody]
      exact List.mem_append_right body' (List.mem_cons_self ..)
    · exact hfails

/-- The body of a doc comment, between its delimiters, is what was consumed. -/
theorem doc_consumed {s s' : State} (inside : s.end_ ≤ s.src.length) {comment : Snippet}
    (h : DocReads s comment s') : slice s.pos s'.pos s.src = docMark
      ++ slice comment.offset (comment.offset + comment.length) comment.fptr ++ closeMark := by
  obtain ⟨body, rest, heq, -, -, rfl, rfl⟩ := (docReads_iff inside).mp h
  have hat : At s.src s.pos s.end_ (docMark ++ (body ++ closeMark ++ rest)) := ⟨inside, heq⟩
  have hbody : slice (s.pos + 3) (s.pos + 3 + body.length) s.src = body :=
    slice_eq (b := closeMark ++ rest) (by rw [← List.append_assoc]; exact hat.append)
  have hall : At s.src s.pos s.end_ (docMark ++ body ++ closeMark ++ rest) := by
    simpa using hat
  rw [hbody]
  exact slice_eq hall

/-! ## Gaps are read exactly -/

/-- The longest gap is read, unless a tab or a block comment that never balances is next; a doc
    comment is read by the same rule. -/
theorem gaps_exact (s : State) (inside : s.end_ ≤ s.src.length) :
    (∀ comments s', ChompReads s comments s' ↔ ∃ ps rest, Longest (left s) ps rest ∧
      ¬ (∃ t, TabAfter t rest) ∧ ¬ Endless rest ∧ comments = ps.filterMap Piece.comment ∧
      s' = moved s (ps.flatMap Piece.text) (placeAfter s ps)) ∧
    (∀ place, ChompFails s .HasTab place ↔ ∃ ps rest t, Longest (left s) ps rest ∧
      TabAfter t rest ∧ place = after false (placeAfter s ps) t) ∧
    (∀ place, ChompFails s .EndlessMultiComment place ↔ ∃ ps rest, Longest (left s) ps rest ∧
      Endless rest ∧ place = placeAfter s ps) ∧
    (∀ comment s', DocReads s comment s' ↔ ∃ body rest,
      left s = docMark ++ (body ++ closeMark ++ rest) ∧ Balanced body ∧ 0x09 ∉ body ∧
      comment = ⟨s.src, s.pos + 3, body.length, s.row, s.col + 3⟩ ∧
      s' = moved s (docMark ++ body ++ closeMark)
        (after false (s.row, s.col) (docMark ++ body ++ closeMark))) ∧
    (∀ comment s', DocReads s comment s' → slice s.pos s'.pos s.src = docMark
      ++ slice comment.offset (comment.offset + comment.length) comment.fptr ++ closeMark) ∧
    (DocAbsent s ↔ ¬ docMark <+: left s) ∧
    (∀ place, DocFails s .HasTab place ↔ ∃ body rest,
      left s = docMark ++ (body ++ 0x09 :: rest) ∧ Open body ∧ 0x09 ∉ body ∧
      place = after false (s.row, s.col) (docMark ++ body)) ∧
    (∀ place, DocFails s .EndlessMultiComment place ↔ ∃ body, left s = docMark ++ body ∧
      Open body ∧ 0x09 ∉ body ∧ place = (s.row, s.col)) := by
  refine ⟨?_, ?_, ?_, ?_, ?_, docAbsent_iff inside, ?_, ?_⟩
  · intro comments s'
    exact chompReads_iff inside
  · intro place
    exact chompFails_tab_iff inside
  · intro place
    exact chompFails_endless_iff inside
  · intro comment s'
    exact docReads_iff inside
  · intro comment s'
    exact doc_consumed inside
  · intro place
    exact docFails_tab_iff inside
  · intro place
    exact docFails_endless_iff inside

theorem ends_nil : Ends [] := by
  intro p l _ heq
  exact p.text_ne_nil (List.append_eq_nil_iff.mp heq.symm).1

theorem not_tabAfter_nil : ¬ ∃ t, TabAfter t [] := by
  rintro ⟨t, ⟨r, hr⟩, -⟩
  cases t <;> cases hr

theorem not_endless_nil : ¬ Endless [] := fun h => absurd h.2 (by decide)

/-- `{-{--}-}` and a space. -/
theorem gaps_exact_nested :
    ChompReads (initialState [0x7B, 0x2D, 0x7B, 0x2D, 0x2D, 0x7D, 0x2D, 0x7D, 0x20])
      [.BlockComment [0x7B, 0x2D, 0x2D, 0x7D] []]
      ⟨[0x7B, 0x2D, 0x7B, 0x2D, 0x2D, 0x7D, 0x2D, 0x7D, 0x20], 9, 9, 0, 1, 10⟩ := by
  have hok : (Piece.block [0x7B, 0x2D, 0x2D, 0x7D]).Ok [0x20] :=
    ⟨⟨_, Nest.wrap .nil .nil, rfl⟩, by decide, by decide⟩
  exact ((gaps_exact (initialState _) le_rfl).1 _ _).mpr
    ⟨[.block [0x7B, 0x2D, 0x2D, 0x7D], .space], [],
      longest_of_ends ⟨rfl, hok, trivial, trivial⟩ ends_nil, not_tabAfter_nil, not_endless_nil,
      rfl, rfl⟩

/-- A block comment that is the whole text. -/
theorem chomp_block {body : Text} (h : (Piece.block body).Ok []) :
    ChompReads (initialState (Piece.block body).text) [blockComment body]
      (moved (initialState (Piece.block body).text) (Piece.block body).text
        (after false (1, 1) (Piece.block body).text)) := by
  have hleft : left (initialState (Piece.block body).text) = (Piece.block body).text :=
    List.take_length
  refine (chompReads_iff le_rfl).mpr ⟨[.block body], [], longest_of_ends ⟨?_, h, trivial⟩ ends_nil,
    not_tabAfter_nil, not_endless_nil, rfl, ?_⟩
  · rw [hleft, flatMap_text_cons]
    simp
  · rw [List.flatMap_singleton]
    rfl

theorem ends_open_tab : Ends (openMark ++ [0x09]) := by
  intro p l _ heq
  cases p <;> try cases heq
  rename_i body
  have hlen := congrArg List.length heq
  simp [Piece.text] at hlen
  omega

/-- `{-` and a tab: the comment is never balanced, and the tab is reported. `{-a`, a carriage return
    or a newline, and `b-}`: two texts, and one comment. -/
theorem gaps_not_exact :
    (Open [0x09] ∧ ChompFails (initialState (openMark ++ [0x09])) .HasTab (1, 3) ∧
      ∀ place, ¬ ChompFails (initialState (openMark ++ [0x09])) .EndlessMultiComment place) ∧
    ∃ comment s s', ChompReads (initialState (openMark ++ [0x61, 0x0D, 0x62] ++ closeMark))
        [comment] s ∧
      ChompReads (initialState (openMark ++ [0x61, 0x0A, 0x62] ++ closeMark)) [comment] s' := by
  have htab : ChompFails (initialState (openMark ++ [0x09])) .HasTab (1, 3) := by
    refine (chompFails_tab_iff le_rfl).mpr ⟨[], openMark ++ [0x09], openMark,
      longest_of_ends ⟨rfl, trivial⟩ ends_open_tab, ⟨⟨[], rfl⟩, Or.inr ⟨[], rfl, ?_, ?_, ?_⟩⟩, rfl⟩
    · exact open_iff.mpr rfl
    · exact List.not_mem_nil
    · simp
  refine ⟨⟨open_iff.mpr rfl, htab, fun place h => ?_⟩, blockComment [0x61, 0x0D, 0x62], _, _,
    chomp_block ⟨⟨_, nest_other [0x61, 0x0D, 0x62], rfl⟩, by decide, by decide⟩,
    chomp_block ⟨⟨_, nest_other [0x61, 0x0A, 0x62], rfl⟩, by decide, by decide⟩⟩
  cases (fails_unique htab h).1

end

end ParseSpace

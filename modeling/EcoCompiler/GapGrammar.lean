import EcoCompiler.Nesting
import EcoCompiler.ParseSpace
import EcoCompiler.ParseStringProofs

/-! # What a gap is

    A gap is a sequence of pieces of the source; a block comment ends where its brackets balance,
    and a closing bracket is looked for before an opening one.

    * `marks`, `Balanced`, `Open` — the brackets of a comment;
    * `Piece`, `IsGap` — the pieces of a gap, and the comments among them;
    * `gap_unique` — a text starts with one longest gap. -/

namespace ParseSpace

open Primitives SourceLiteral Mark

/-- `{-`. -/
abbrev openMark : Text := [0x7B, 0x2D]

/-- `-}`. -/
abbrev closeMark : Text := [0x2D, 0x7D]

/-- The opening of a doc comment. -/
abbrev docMark : Text := [0x7B, 0x2D, 0x7C]

/-- The brackets of a text, and the units between them. -/
def marks : Text → List (Mark UInt16)
  | [] => []
  | [u] => [.other u]
  | u :: v :: t =>
    if u = 0x2D ∧ v = 0x7D then .closing :: marks t
    else if u = 0x7B ∧ v = 0x2D then .opening :: marks t
    else .other u :: marks (v :: t)

/-- The text of a mark. -/
def markText : Mark UInt16 → Text
  | .opening => openMark
  | .closing => closeMark
  | .other u => [u]

/-- The text of marks. -/
def unmark (l : List (Mark UInt16)) : Text := l.flatMap markText

section

variable {t l body rest : Text} {b r : List (Mark UInt16)} {u : UInt16}

/-- The text of marks is the text of one part and then of the other. -/
theorem unmark_append (b r : List (Mark UInt16)) : unmark (b ++ r) = unmark b ++ unmark r :=
  List.flatMap_append

theorem unmark_cons (m : Mark UInt16) (b : List (Mark UInt16)) :
    unmark (m :: b) = markText m ++ unmark b := List.flatMap_cons

/-- A unit that begins no bracket. -/
def Plain (u : UInt16) (t : Text) : Prop :=
  (u = 0x2D → t.head? ≠ some 0x7D) ∧ (u = 0x7B → t.head? ≠ some 0x2D)

/-- A closing mark is found at the front. -/
theorem marks_closing (t : Text) : marks (closeMark ++ t) = .closing :: marks t := by
  simp [marks]

/-- An opening mark is found at the front. -/
theorem marks_opening (t : Text) : marks (openMark ++ t) = .opening :: marks t := by
  simp [marks]

/-- A plain unit is no mark. -/
theorem marks_other (h : Plain u t) : marks (u :: t) = .other u :: marks t := by
  cases t with
  | nil => rfl
  | cons v t =>
    rw [marks, if_neg, if_neg]
    · rintro ⟨hu, rfl⟩
      exact h.2 hu rfl
    · rintro ⟨hu, rfl⟩
      exact h.1 hu rfl

/-- A text that is not empty starts with a bracket or with a plain unit. -/
theorem cases_cons (u : UInt16) (t : Text) :
    (∃ l, u :: t = closeMark ++ l) ∨ (∃ l, u :: t = openMark ++ l) ∨ Plain u t := by
  by_cases hclose : u = 0x2D ∧ t.head? = some 0x7D
  · obtain ⟨rfl, ht⟩ := hclose
    obtain ⟨l, rfl⟩ := List.head?_eq_some_iff.mp ht
    exact Or.inl ⟨l, rfl⟩
  · by_cases hopen : u = 0x7B ∧ t.head? = some 0x2D
    · obtain ⟨rfl, ht⟩ := hopen
      obtain ⟨l, rfl⟩ := List.head?_eq_some_iff.mp ht
      exact Or.inr (Or.inl ⟨l, rfl⟩)
    · exact Or.inr (Or.inr ⟨fun hu ht => hclose ⟨hu, ht⟩, fun hu ht => hopen ⟨hu, ht⟩⟩)

/-- The first mark is read off the start of the text. -/
theorem marks_eq_cons {m : Mark UInt16} (h : marks t = m :: b) :
    ∃ l, t = markText m ++ l ∧ marks l = b ∧ ∀ u, m = .other u → Plain u l := by
  cases t with
  | nil => cases h
  | cons u t =>
    rcases cases_cons u t with ⟨l, hl⟩ | ⟨l, hl⟩ | hplain
    · rw [hl, marks_closing] at h
      obtain ⟨rfl, hb⟩ := List.cons.inj h
      exact ⟨l, hl, hb, fun u hu => by cases hu⟩
    · rw [hl, marks_opening] at h
      obtain ⟨rfl, hb⟩ := List.cons.inj h
      exact ⟨l, hl, hb, fun u hu => by cases hu⟩
    · rw [marks_other hplain] at h
      obtain ⟨rfl, hb⟩ := List.cons.inj h
      refine ⟨t, rfl, hb, fun v hv => ?_⟩
      cases hv
      exact hplain

/-- The marks are those of the text. -/
theorem unmark_marks (h : marks t = b) : unmark b = t := by
  induction b generalizing t with
  | nil =>
    cases t with
    | nil => rfl
    | cons u t =>
      rcases cases_cons u t with ⟨l, hl⟩ | ⟨l, hl⟩ | hplain
      · rw [hl, marks_closing] at h
        cases h
      · rw [hl, marks_opening] at h
        cases h
      · rw [marks_other hplain] at h
        cases h
  | cons m b ih =>
    obtain ⟨l, rfl, hl, -⟩ := marks_eq_cons h
    rw [unmark_cons, ih hl]

/-- Only what follows the first unit matters. -/
theorem Plain.of_head (h : Plain u t) (heq : l.head? = t.head?) : Plain u l :=
  ⟨fun hu => heq ▸ h.1 hu, fun hu => heq ▸ h.2 hu⟩

theorem Plain.of_prefix (h : Plain u t) (hl : l <+: t) : Plain u l := by
  obtain ⟨r, rfl⟩ := hl
  cases l with
  | nil => exact ⟨fun _ => by simp, fun _ => by simp⟩
  | cons v l => exact h

theorem unmark_other (l : Text) : unmark (l.map .other) = l := by
  induction l with
  | nil => rfl
  | cons u l ih => exact congrArg (u :: ·) ih

/-- A mark written before a text is found again. -/
theorem marks_append_markText {m : Mark UInt16} (h : ∀ u, m = .other u → Plain u t) :
    marks (markText m ++ t) = m :: marks t := by
  cases m with
  | opening => exact marks_opening t
  | closing => exact marks_closing t
  | other u => exact marks_other (h u rfl)

/-- A closing bracket ends the marks before it, whatever follows. -/
theorem marks_append_closing (h : marks t = b ++ [.closing]) (rest : Text) :
    marks (t ++ rest) = b ++ .closing :: marks rest := by
  induction b generalizing t with
  | nil =>
    obtain ⟨l, rfl, hl, -⟩ := marks_eq_cons h
    have hnil := unmark_marks hl
    rw [← hnil, unmark, List.flatMap_nil, List.append_nil]
    exact marks_closing rest
  | cons m b ih =>
    obtain ⟨l, rfl, hl, hplain⟩ := marks_eq_cons h
    rw [List.append_assoc, marks_append_markText, ih hl, List.cons_append]
    intro u hu
    refine (hplain u hu).of_head ?_
    cases l with
    | nil => simp [marks] at hl
    | cons v l => rfl

/-- The marks up to a closing one are those of the text up to it. -/
theorem marks_of_closing (h : marks t = b ++ .closing :: r) :
    marks (unmark b ++ closeMark) = b ++ [.closing] := by
  induction b generalizing t with
  | nil => rfl
  | cons m b ih =>
    obtain ⟨l, rfl, hl, hplain⟩ := marks_eq_cons h
    rw [unmark_cons, List.append_assoc, marks_append_markText, ih hl, List.cons_append]
    intro u hu
    refine (hplain u hu).of_head ?_
    have htext : unmark (b ++ .closing :: r) = l := unmark_marks hl
    rw [← htext, unmark_append, unmark_cons]
    cases unmark b <;> rfl

end

/-- What is between the opening of a block comment and the end of its closing. -/
def Balanced (body : Text) : Prop := ∃ b, Nest b ∧ marks (body ++ closeMark) = b ++ [.closing]

/-- No part of the text is a block comment's. -/
def Open (t : Text) : Prop := ∀ body rest, t = body ++ closeMark ++ rest → ¬ Balanced body

section

variable {t body rest : Text} {b r : List (Mark UInt16)}

/-- The scan of the brackets ends a comment where it is balanced. -/
theorem balanced_of_closeAt (h : closeAt 0 (marks t) = some (b, r)) :
    Balanced (unmark b) ∧ t = unmark b ++ closeMark ++ unmark r := by
  obtain ⟨hl, hb⟩ := closeAt_eq_some_iff.mp h
  refine ⟨⟨b, hb, marks_of_closing hl⟩, ?_⟩
  rw [← unmark_marks hl, unmark_append, unmark_cons, List.append_assoc]
  rfl

/-- A balanced body is closed by the mark behind it. -/
theorem closeAt_of_balanced (h : Balanced body) (rest : Text) :
    ∃ b, unmark b = body ∧
      closeAt 0 (marks (body ++ closeMark ++ rest)) = some (b, marks rest) := by
  obtain ⟨b, hb, hmarks⟩ := h
  refine ⟨b, ?_, ?_⟩
  · have htext := unmark_marks hmarks
    rw [unmark_append] at htext
    exact List.append_cancel_right htext
  · rw [marks_append_closing hmarks, closeAt_eq_some_iff]
    exact ⟨rfl, hb⟩

/-- A text is open when no mark closes it. -/
theorem open_iff : Open t ↔ closeAt 0 (marks t) = none := by
  constructor
  · intro h
    rw [Option.eq_none_iff_forall_ne_some]
    rintro ⟨b, r⟩ hclose
    obtain ⟨hbalanced, ht⟩ := balanced_of_closeAt hclose
    exact h _ _ ht hbalanced
  · rintro hnone body rest rfl hbalanced
    obtain ⟨b, -, hclose⟩ := closeAt_of_balanced hbalanced rest
    rw [hnone] at hclose
    cases hclose

/-- A block comment ends at one place. -/
theorem balanced_unique {body' rest' : Text} (h : Balanced body) (h' : Balanced body')
    (heq : body ++ closeMark ++ rest = body' ++ closeMark ++ rest') : body = body' := by
  obtain ⟨b, rfl, hclose⟩ := closeAt_of_balanced h rest
  obtain ⟨b', rfl, hclose'⟩ := closeAt_of_balanced h' rest'
  rw [heq, hclose'] at hclose
  obtain ⟨rfl, -⟩ := Prod.mk.inj (Option.some.inj hclose)
  rfl

end

/-! ## Pieces -/

/-- The comment with the lines of a text. -/
def blockComment (text : Text) : FComment :=
  match lines text with
  | first :: rest => .BlockComment first rest
  | [] => .BlockComment [] []

/-- A piece of a gap: a blank, a line comment or a block comment. -/
inductive Piece where
  | space
  | newline
  | carriageReturn
  | line (body : Text) (ended : Bool)
  | block (body : Text)

namespace Piece

/-- The text of a piece. -/
def text : Piece → Text
  | space => [0x20]
  | newline => [0x0A]
  | carriageReturn => [0x0D]
  | line body ended => [0x2D, 0x2D] ++ body ++ (if ended then [0x0A] else [])
  | block body => openMark ++ body ++ closeMark

/-- What the piece may be before the text `rest`: a line comment goes to a newline or the end, a
    block comment is balanced, has no tab and is no doc comment. -/
def Ok (rest : Text) : Piece → Prop
  | line body ended => 0x0A ∉ body ∧ (ended = false → rest = [])
  | block body => Balanced body ∧ 0x09 ∉ body ∧ body.head? ≠ some 0x7C
  | _ => True

/-- The comment that a piece leaves behind. -/
def comment : Piece → Option FComment
  | line body _ => some (.LineComment body)
  | block body => some (blockComment body)
  | _ => none

/-- The row and the column past the piece: a carriage return between comments does not count. -/
def past (place : ℕ × ℕ) : Piece → ℕ × ℕ
  | carriageReturn => place
  | p => after false place p.text

end Piece

/-- The pieces are a gap before the text `rest`. -/
def IsGap (rest : Text) : List Piece → Prop
  | [] => True
  | p :: ps => p.Ok (ps.flatMap Piece.text ++ rest) ∧ IsGap rest ps

/-- The text is a gap and a rest. -/
def GapOf (t : Text) (ps : List Piece) (rest : Text) : Prop :=
  t = ps.flatMap Piece.text ++ rest ∧ IsGap rest ps

/-- No piece is next. -/
def Ends (rest : Text) : Prop := ∀ (p : Piece) l, p.Ok l → rest ≠ p.text ++ l

/-- The gap is the longest one of the text. -/
def Longest (t : Text) (ps : List Piece) (rest : Text) : Prop :=
  GapOf t ps rest ∧ ∀ ps' rest', GapOf t ps' rest' →
    (ps'.flatMap Piece.text).length ≤ (ps.flatMap Piece.text).length

/-- A block comment that is open at the end of the text, and has no tab. -/
def OpenComment (t : Text) : Prop :=
  ∃ body, t = openMark ++ body ∧ Open body ∧ 0x09 ∉ body ∧ body.head? ≠ some 0x7C

/-- A tab follows: at once, or in a block comment. -/
def TabAfter (inside rest : Text) : Prop :=
  (∃ t, rest = inside ++ 0x09 :: t) ∧ (inside = [] ∨ OpenComment inside)

/-- A block comment follows that is never balanced; one that starts two units before the end is
    none. -/
def Endless (rest : Text) : Prop := OpenComment rest ∧ 2 < rest.length

theorem OpenComment.no_tab {t : Text} (h : OpenComment t) : 0x09 ∉ t := by
  obtain ⟨body, rfl, -, htab, -⟩ := h
  rw [List.mem_append, not_or]
  exact ⟨by decide, htab⟩

theorem tabAfter_no_tab {inside rest : Text} (h : TabAfter inside rest) : 0x09 ∉ inside := by
  rcases h.2 with rfl | hopen
  · exact List.not_mem_nil
  · exact hopen.no_tab

/-- A text that breaks off at a tab is no comment without an end. -/
theorem tabAfter_not_endless {inside rest : Text} (h : TabAfter inside rest) : ¬ Endless rest := by
  rintro ⟨hopen, -⟩
  obtain ⟨⟨t, rfl⟩, -⟩ := h
  exact hopen.no_tab (List.mem_append_right inside (List.mem_cons_self ..))

/-- The first tab is at one place. -/
theorem tab_unique {a a' t t' : Text} (h : 0x09 ∉ a) (h' : 0x09 ∉ a')
    (heq : a ++ 0x09 :: t = a' ++ 0x09 :: t') : a = a' := by
  have htake : ∀ {b m : Text}, 0x09 ∉ b →
      (b ++ 0x09 :: m).takeWhile (fun u => decide (u ≠ 0x09)) = b := by
    intro b m hb
    rw [List.takeWhile_append_of_pos]
    · simp
    · intro u hu
      rw [decide_eq_true_eq]
      rintro rfl
      exact hb hu
  rw [← htake h, heq, htake h']

/-! ## A text starts with one longest gap -/

section

variable {t l l' rest rest' body body' : Text} {p p' : Piece} {ps ps' : List Piece}

/-- Every piece has a text. -/
theorem Piece.text_ne_nil (p : Piece) : p.text ≠ [] := by
  cases p <;> exact List.cons_ne_nil _ _

/-- A line comment ends at its newline. -/
theorem line_unique {ended ended' : Bool} (h : 0x0A ∉ body) (h' : 0x0A ∉ body')
    (hend : ended = false → l = []) (hend' : ended' = false → l' = [])
    (heq : body ++ (if ended then [0x0A] else []) ++ l
      = body' ++ (if ended' then [0x0A] else []) ++ l') :
    body = body' ∧ ended = ended' ∧ l = l' := by
  have hnone : ∀ {b : Text}, 0x0A ∉ b → ∀ u ∈ b, decide (u ≠ 0x0A) = true := by
    intro b hb u hu
    rw [decide_eq_true_eq]
    rintro rfl
    exact hb hu
  have htake : ∀ {b m : Text} {e : Bool}, 0x0A ∉ b → (e = false → m = []) →
      (b ++ (if e then [0x0A] else []) ++ m).takeWhile (fun u => decide (u ≠ 0x0A)) = b := by
    intro b m e hb hm
    rw [List.append_assoc, List.takeWhile_append_of_pos (hnone hb)]
    cases e with
    | false => simp [hm rfl]
    | true => simp
  have hbody : body = body' := by
    rw [← htake h hend, heq, htake h' hend']
  subst hbody
  rw [List.append_assoc, List.append_assoc] at heq
  have heq := List.append_cancel_left heq
  cases ended <;> cases ended'
  · exact ⟨rfl, rfl, heq⟩
  · rw [hend rfl] at heq
    cases heq
  · rw [hend' rfl] at heq
    cases heq
  · exact ⟨rfl, rfl, (List.cons.inj heq).2⟩

/-- The next piece of a text is determined. -/
theorem piece_unique (h : p.Ok l) (h' : p'.Ok l') (heq : p.text ++ l = p'.text ++ l') :
    p = p' ∧ l = l' := by
  cases p <;> cases p' <;> simp only [Piece.text, List.cons_append, List.nil_append,
    List.cons.injEq, true_and] at heq
  all_goals try exact absurd heq.1 (by decide)
  case space.space => exact ⟨rfl, heq⟩
  case newline.newline => exact ⟨rfl, heq⟩
  case carriageReturn.carriageReturn => exact ⟨rfl, heq⟩
  case line.line body ended body' ended' =>
    obtain ⟨rfl, rfl, hl⟩ := line_unique h.1 h'.1 h.2 h'.2 heq
    exact ⟨rfl, hl⟩
  case block.block body body' =>
    obtain rfl := balanced_unique h.1 h'.1 heq
    exact ⟨rfl, List.append_cancel_left heq⟩

theorem flatMap_text_cons (p : Piece) (ps : List Piece) (rest : Text) :
    (p :: ps).flatMap Piece.text ++ rest = p.text ++ (ps.flatMap Piece.text ++ rest) := by
  rw [List.flatMap_cons, List.append_assoc]

/-- Every text is a run of pieces and an end. -/
theorem exists_ends (t : Text) : ∃ ps rest, GapOf t ps rest ∧ Ends rest := by
  induction hn : t.length using Nat.strong_induction_on generalizing t with
  | _ n ih =>
    by_cases hends : Ends t
    · exact ⟨[], t, ⟨rfl, trivial⟩, hends⟩
    · unfold Ends at hends
      push Not at hends
      obtain ⟨p, l, hok, rfl⟩ := hends
      have hpos := List.length_pos_of_ne_nil p.text_ne_nil
      rw [List.length_append] at hn
      obtain ⟨ps, rest, ⟨rfl, hgap⟩, hends⟩ := ih l.length (by omega) l rfl
      exact ⟨p :: ps, rest, ⟨(flatMap_text_cons p ps rest).symm, hok, hgap⟩, hends⟩

/-- A gap before which no piece is next goes on from any other one. -/
theorem gap_extends (h : GapOf t ps rest) (hends : Ends rest) (h' : GapOf t ps' rest') :
    ∃ more, ps = ps' ++ more := by
  induction ps' generalizing t ps with
  | nil => exact ⟨ps, rfl⟩
  | cons p' ps' ih =>
    obtain ⟨ht', hok', hgap'⟩ := h'
    obtain ⟨ht, hgap⟩ := h
    rw [flatMap_text_cons] at ht'
    cases ps with
    | nil => exact absurd (ht.symm.trans ht') (hends p' _ hok')
    | cons p ps =>
      rw [flatMap_text_cons] at ht
      obtain ⟨rfl, heq⟩ := piece_unique hgap.1 hok' (ht.symm.trans ht')
      obtain ⟨more, rfl⟩ := ih ⟨rfl, hgap.2⟩ ⟨heq, hgap'⟩
      exact ⟨more, rfl⟩

/-- A run that ends is the longest. -/
theorem longest_of_ends (h : GapOf t ps rest) (hends : Ends rest) : Longest t ps rest := by
  refine ⟨h, fun ps' rest' h' => ?_⟩
  obtain ⟨more, rfl⟩ := gap_extends h hends h'
  rw [List.flatMap_append, List.length_append]
  exact Nat.le_add_right _ _

/-- A text starts with one longest gap. -/
theorem gap_unique (h : GapOf t ps rest) (hends : Ends rest) (h' : Longest t ps' rest') :
    ps' = ps ∧ rest' = rest := by
  obtain ⟨more, rfl⟩ := gap_extends h hends h'.1
  have hle := h'.2 _ _ h
  rw [List.flatMap_append, List.length_append] at hle
  cases more with
  | nil =>
    rw [List.append_nil] at h ⊢
    exact ⟨rfl, List.append_cancel_left (h'.1.1.symm.trans h.1)⟩
  | cons p more =>
    have hpos := List.length_pos_of_ne_nil p.text_ne_nil
    rw [List.flatMap_cons, List.length_append] at hle
    omega

end

end ParseSpace

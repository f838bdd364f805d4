import EcoCompiler.ParseString

/-! # Gaps between tokens

    `Compiler.Parse.Space`: one loop reads spaces and both kinds of comment, another one the inside
    of a block comment.

    * `eatMultiCommentHelp`, `eat` — the loops;
    * `chomp`, `docComment` — the parsers. -/

namespace ParseSpace

open Primitives ParseString

/-- `Space` of `Compiler.Parse.Error`. -/
inductive Space where
  | HasTab
  | EndlessMultiComment
  deriving DecidableEq

/-- `FComment` of `Compiler.IR.Source`. -/
inductive FComment where
  | BlockComment (first : Text) (rest : List Text)
  | LineComment (text : Text)
  deriving DecidableEq

/-- `Snippet` of `Compiler.Core.Snippet`. -/
structure Snippet where
  fptr : Text
  offset : ℕ
  length : ℕ
  offRow : ℕ
  offCol : ℕ
  deriving DecidableEq

/-- The text a snippet names. -/
def Snippet.text (snippet : Snippet) : Text :=
  (snippet.fptr.drop snippet.offset).take snippet.length

/-- `String.lines`: a carriage return with the newline after it is one break, and each of them
    alone is one. -/
def lines : Text → List Text
  | [] => [[]]
  | 0x0D :: 0x0A :: t => [] :: lines t
  | u :: t =>
    if u = 0x0A ∨ u = 0x0D then [] :: lines t
    else
      match lines t with
      | [] => [[u]]
      | first :: rest => (u :: first) :: rest

/-- The units between two positions. -/
def slice (start end_ : ℕ) (src : Text) : Text := (src.drop start).take (end_ - start)

/-- `EatType`: whether a comment is being read. -/
inductive EatType where
  | EatSpaces
  | EatLineComment (startPos : ℕ)
  | EatMultiComment
  deriving DecidableEq

/-- `Status`. -/
inductive Status where
  | Good
  | HasTab
  | EndlessMultiComment
  deriving DecidableEq

/-- `MultiStatus`. -/
inductive MultiStatus where
  | MultiGood
  | MultiTab
  | MultiEndless
  deriving DecidableEq

/-- `isWord`: a given character at a position. -/
def isWord (src : Text) (pos end_ word : ℕ) : Bool :=
  decide (pos < end_) && decide (unsafeIndex src pos = word)

/-! ## The inside of a block comment -/

/-- `eatMultiCommentHelp`: up to the end of the outermost comment. -/
def eatMultiCommentHelp (src : Text) (pos end_ row col openComments : ℕ) :
    (MultiStatus × ℕ) × (ℕ × ℕ) :=
  if end_ ≤ pos then ((.MultiEndless, pos), (row, col))
  else
    let word := unsafeIndex src pos
    if word = 0x0A then eatMultiCommentHelp src (pos + 1) end_ (row + 1) 1 openComments
    else if word = 0x09 then ((.MultiTab, pos), (row, col))
    else if word = 0x2D ∧ isWord src (pos + 1) end_ 0x7D then
      if openComments = 1 then ((.MultiGood, pos + 2), (row, col + 2))
      else eatMultiCommentHelp src (pos + 2) end_ row (col + 2) (openComments - 1)
    else if word = 0x7B ∧ isWord src (pos + 1) end_ 0x2D then
      eatMultiCommentHelp src (pos + 2) end_ row (col + 2) (openComments + 1)
    else
      let newPos := pos + charWidthAt src pos end_ word
      eatMultiCommentHelp src newPos end_ row (col + 1) openComments
termination_by end_ - pos
decreasing_by
  · omega
  · omega
  · omega
  · have hwidth := charWidthAt_pos src pos end_ word
    change end_ - (pos + charWidthAt src pos end_ word) < end_ - pos
    omega

/-- The loop stops where it starts or later. -/
theorem le_eatMultiCommentHelp (src : Text) (pos end_ row col openComments : ℕ) :
    pos ≤ (eatMultiCommentHelp src pos end_ row col openComments).1.2 := by
  fun_induction eatMultiCommentHelp src pos end_ row col openComments with
  | case1 => exact le_rfl
  | case2 => omega
  | case3 => exact le_rfl
  | case4 => exact Nat.le_add_right _ _
  | case5 => omega
  | case6 => omega
  | case7 => omega

/-! ## Gaps -/

/-- `eat`: spaces, line breaks and comments. -/
def eat (eatType : EatType) (comments : List FComment) (src : Text) (pos end_ row col : ℕ) :
    (Status × List FComment × ℕ) × (ℕ × ℕ) :=
  match eatType with
  | .EatSpaces =>
    if end_ ≤ pos then ((.Good, comments, pos), (row, col))
    else
      match unsafeIndex src pos with
      | 0x20 => eat .EatSpaces comments src (pos + 1) end_ row (col + 1)
      | 0x0A => eat .EatSpaces comments src (pos + 1) end_ (row + 1) 1
      | 0x7B => eat .EatMultiComment comments src pos end_ row col
      | 0x2D =>
        let pos1 := pos + 1
        if pos1 < end_ ∧ unsafeIndex src pos1 = 0x2D then
          eat (.EatLineComment (pos + 2)) comments src (pos + 2) end_ row (col + 2)
        else ((.Good, comments, pos), (row, col))
      | 0x0D => eat .EatSpaces comments src (pos + 1) end_ row col
      | 0x09 => ((.HasTab, comments, pos), (row, col))
      | _ => ((.Good, comments, pos), (row, col))
  | .EatLineComment startPos =>
    if end_ ≤ pos then
      ((.Good, .LineComment (slice startPos pos src) :: comments, pos), (row, col))
    else
      let word := unsafeIndex src pos
      if word = 0x0A then
        let newComment := FComment.LineComment (slice startPos pos src)
        eat .EatSpaces (newComment :: comments) src (pos + 1) end_ (row + 1) 1
      else
        let newPos := pos + charWidthAt src pos end_ word
        eat (.EatLineComment startPos) comments src newPos end_ row (col + 1)
  | .EatMultiComment =>
    let pos2 := pos + 2
    if end_ ≤ pos2 then ((.Good, comments, pos), (row, col))
    else
      let pos1 := pos + 1
      if unsafeIndex src pos1 = 0x2D then
        if unsafeIndex src pos2 = 0x7C then ((.Good, comments, pos), (row, col))
        else
          match h : eatMultiCommentHelp src pos2 end_ row (col + 2) 1 with
          | ((.MultiGood, newPos), (newRow, newCol)) =>
            let newComment :=
              match lines (slice pos2 (newPos - 2) src) with
              | first :: rest => FComment.BlockComment first rest
              | [] => .BlockComment [] []
            eat .EatSpaces (newComment :: comments) src newPos end_ newRow newCol
          | ((.MultiTab, newPos), (newRow, newCol)) =>
            ((.HasTab, comments, newPos), (newRow, newCol))
          | ((.MultiEndless, _), _) => ((.EndlessMultiComment, comments, pos), (row, col))
      else ((.Good, comments, pos), (row, col))
termination_by (end_ - pos, if eatType = .EatSpaces then 1 else 0)
decreasing_by
  all_goals first
    | (apply Prod.Lex.left; omega)
    | skip
  · apply Prod.Lex.right
    simp
  · apply Prod.Lex.left
    have hwidth := charWidthAt_pos src pos end_ word
    change end_ - (pos + charWidthAt src pos end_ word) < end_ - pos
    omega
  · apply Prod.Lex.left
    have hle := le_eatMultiCommentHelp src (pos + 2) end_ row (col + 2) 1
    rw [h] at hle
    change pos + 2 ≤ newPos at hle
    omega

section

variable {x : Type}

/-- `chomp`. -/
def chomp (toError : Space → ℕ → ℕ → x) : Parser x (List FComment) := fun st =>
  match eat .EatSpaces [] st.src st.pos st.end_ st.row st.col with
  | ((.Good, comments, newPos), (newRow, newCol)) =>
    .cok comments.reverse { st with pos := newPos, row := newRow, col := newCol }
  | ((.HasTab, _, _), (newRow, newCol)) => .cerr newRow newCol (toError .HasTab)
  | ((.EndlessMultiComment, _, _), (newRow, newCol)) =>
    .cerr newRow newCol (toError .EndlessMultiComment)

/-- `docComment`. -/
def docComment (toExpectation : ℕ → ℕ → x) (toSpaceError : Space → ℕ → ℕ → x) :
    Parser x Snippet := fun st =>
  let pos3 := st.pos + 3
  if pos3 ≤ st.end_ ∧ unsafeIndex st.src st.pos = 0x7B ∧ unsafeIndex st.src (st.pos + 1) = 0x2D
      ∧ unsafeIndex st.src (st.pos + 2) = 0x7C then
    let col3 := st.col + 3
    match eatMultiCommentHelp st.src pos3 st.end_ st.row col3 1 with
    | ((.MultiGood, newPos), (newRow, newCol)) =>
      let off := pos3
      let len := newPos - pos3 - 2
      let snippet : Snippet := ⟨st.src, off, len, st.row, col3⟩
      .cok snippet { st with pos := newPos, row := newRow, col := newCol }
    | ((.MultiTab, _), (newRow, newCol)) => .cerr newRow newCol (toSpaceError .HasTab)
    | ((.MultiEndless, _), _) => .cerr st.row st.col (toSpaceError .EndlessMultiComment)
  else .eerr st.row st.col toExpectation

end

end ParseSpace

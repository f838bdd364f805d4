import EcoCompiler.CanonicalPatterns

/-! # The pattern checker

    `Compiler.Nitpick.PatternMatches`: which pattern of a match is redundant, and
    which values a match misses.  `none` is a crash.  Both recursions end: what a
    matrix is specialised by is a constructor that starts one of its rows, or else
    the rows get shorter. -/

namespace PatternMatches

/-! ## Patterns -/

/-- `Literal`. -/
inductive Literal where
  | Chr (chr : String)
  | Str (str : String)
  | Int (int : Int)
  deriving DecidableEq

/-- `Pattern`. -/
inductive Pattern where
  | Anything
  | Literal (literal : Literal)
  | Ctor (union : Can.Union) (name : String) (args : List Pattern)

/-- A row of a matrix. -/
abbrev Row := List Pattern

/-! ## Built-in unions -/

/-- `unit`. -/
def unit : Can.Union :=
  { alts := [{ name := unitName, index := 0, numArgs := 0 }], numAlts := 1, opts := .Normal }

/-- `pair`. -/
def pair : Can.Union :=
  { alts := [{ name := pairName, index := 0, numArgs := 2 }], numAlts := 1, opts := .Normal }

/-- `triple`. -/
def triple : Can.Union :=
  { alts := [{ name := tripleName, index := 0, numArgs := 3 }], numAlts := 1, opts := .Normal }

/-- `list`. -/
def list : Can.Union :=
  { alts := [{ name := nilName, index := 0, numArgs := 0 },
      { name := consName, index := 1, numArgs := 2 }],
    numAlts := 2, opts := .Normal }

/-! ## Simplified patterns -/

/-- `nil`. -/
def nil : Pattern := .Ctor list nilName []

mutual

/-- `simplify`. -/
def simplify : Can.Pattern → Pattern
  | .PAnything => .Anything
  | .PVar _ => .Anything
  | .PRecord _ => .Anything
  | .PUnit => .Ctor unit unitName []
  | .PTuple a b => .Ctor pair pairName [simplify a, simplify b]
  | .PTuple3 a b c => .Ctor triple tripleName [simplify a, simplify b, simplify c]
  | .PCtor _ _ union name _ args => .Ctor union name (simplifyArgs args)
  | .PList entries => simplifyEntries entries
  | .PCons hd tl => .Ctor list consName [simplify hd, simplify tl]
  | .PAlias subPattern _ => simplify subPattern
  | .PInt int => .Literal (.Int int)
  | .PStr str _ => .Literal (.Str str)
  | .PChr chr => .Literal (.Chr chr)
  | .PBool union bool => .Ctor union (boolName bool) []

/-- `List.map simplify` over the arguments of a constructor pattern. -/
def simplifyArgs : List Can.Pattern → List Pattern
  | [] => []
  | arg :: args => simplify arg :: simplifyArgs args

/-- `List.foldr cons nil` over the entries of a list pattern. -/
def simplifyEntries : List Can.Pattern → Pattern
  | [] => nil
  | hd :: tl => .Ctor list consName [simplify hd, simplifyEntries tl]

end

/-! ## Specialisation -/

/-- `specializeRowByCtor`. -/
def specializeRowByCtor (ctorName : String) (arity : Nat) (row : Row) : Option (Option Row) :=
  match row with
  | .Ctor _ name args :: patterns =>
      if name = ctorName then some (some (args ++ patterns)) else some none
  | .Anything :: patterns => some (some (List.replicate arity .Anything ++ patterns))
  | .Literal _ :: _ => none
  | [] => none

/-- `specializeRowByLiteral`. -/
def specializeRowByLiteral (literal : Literal) (row : Row) : Option (Option Row) :=
  match row with
  | .Literal lit :: patterns => if lit = literal then some (some patterns) else some none
  | .Anything :: patterns => some (some patterns)
  | .Ctor _ _ _ :: _ => none
  | [] => none

/-- `specializeRowByAnything`. -/
def specializeRowByAnything (row : Row) : Option Row :=
  match row with
  | [] => none
  | .Ctor _ _ _ :: _ => none
  | .Anything :: patterns => some patterns
  | .Literal _ :: _ => none

/-- `List.filterMap` of a specialisation that may crash. -/
def specialize (f : Row → Option (Option Row)) : List Row → Option (List Row)
  | [] => some []
  | row :: rows =>
      match f row, specialize f rows with
      | some r, some rs => some (r.toList ++ rs)
      | _, _ => none

/-- The rows that start with `Anything`, without it. -/
def defaultRows (matrix : List Row) : List Row := matrix.filterMap specializeRowByAnything

/-! ## The constructors of a column -/

/-- `Dict.insert`, on the entries of a dictionary in the order of their keys. -/
def dictInsert {α : Type} (key : String) (value : α) :
    List (String × α) → List (String × α)
  | [] => [(key, value)]
  | (k, v) :: rest =>
      if key < k then (key, value) :: (k, v) :: rest
      else if key = k then (key, value) :: rest
      else (k, v) :: dictInsert key value rest

/-- `collectCtorsHelp`. -/
def collectCtorsHelp (ctors : List (String × Can.Union)) (row : Row) :
    List (String × Can.Union) :=
  match row with
  | .Ctor union name _ :: _ => dictInsert name union ctors
  | _ => ctors

/-- `collectCtors`. -/
def collectCtors (matrix : List Row) : List (String × Can.Union) :=
  matrix.foldl collectCtorsHelp []

/-- `Complete`. -/
inductive Complete where
  | Yes (alts : List Can.Ctor)
  | No

/-- `isComplete`; the first entry is the one `mapFindMin` finds. -/
def isComplete (matrix : List Row) : Complete :=
  match collectCtors matrix with
  | [] => .No
  | (name, union) :: rest =>
      if ((name, union) :: rest).length = union.numAlts then .Yes union.alts else .No

/-- `isMissing`. -/
def isMissing (union : Can.Union) (ctors : List (String × Can.Union)) (c : Can.Ctor) :
    Option Pattern :=
  if ctors.any (fun entry => entry.1 = c.name) then none
  else some (.Ctor union c.name (List.replicate c.numArgs .Anything))

/-- `recoverCtor`. -/
def recoverCtor (union : Can.Union) (name : String) (arity : Nat) (patterns : Row) : Row :=
  .Ctor union name (patterns.take arity) :: patterns.drop arity

/-! ## Termination -/

mutual

/-- The number of constructors in a pattern. -/
def Pattern.ctors : Pattern → Nat
  | .Anything => 0
  | .Literal _ => 0
  | .Ctor _ _ args => 1 + rowCtors args

/-- The number of constructors in a row. -/
def rowCtors : List Pattern → Nat
  | [] => 0
  | p :: ps => p.ctors + rowCtors ps

end

/-- The number of constructors in a matrix. -/
def matrixCtors (matrix : List Row) : Nat := (matrix.map rowCtors).sum

theorem rowCtors_append (a b : Row) : rowCtors (a ++ b) = rowCtors a + rowCtors b := by
  induction a with
  | nil => rw [List.nil_append, rowCtors, Nat.zero_add]
  | cons p a ih => rw [List.cons_append, rowCtors, rowCtors, ih, Nat.add_assoc]

theorem rowCtors_replicate (n : Nat) : rowCtors (List.replicate n .Anything) = 0 := by
  induction n with
  | zero => rfl
  | succ n ih => rw [List.replicate_succ, rowCtors, ih]; rfl

theorem matrixCtors_cons (row : Row) (rows : List Row) :
    matrixCtors (row :: rows) = rowCtors row + matrixCtors rows := by
  rw [matrixCtors, List.map_cons, List.sum_cons]
  rfl

/-- A row that starts with a constructor. -/
def StartsWithCtor (row : Row) : Prop := ∃ union name args rest, row = .Ctor union name args :: rest

theorem specializeRowByCtor_ctors {name : String} {arity : Nat} {row row' : Row}
    (h : specializeRowByCtor name arity row = some (some row')) :
    rowCtors row' ≤ rowCtors row ∧ (StartsWithCtor row → rowCtors row' < rowCtors row) := by
  match row, h with
  | .Ctor union name' args :: patterns, h =>
      rw [specializeRowByCtor] at h
      split at h
      · obtain rfl := Option.some.inj (Option.some.inj h)
        rw [rowCtors_append, rowCtors, Pattern.ctors]
        exact ⟨by omega, fun _ => by omega⟩
      · cases Option.some.inj h
  | .Anything :: patterns, h =>
      obtain rfl := Option.some.inj (Option.some.inj h)
      rw [rowCtors_append, rowCtors_replicate, rowCtors, Pattern.ctors]
      exact ⟨Nat.le_refl _, fun ⟨_, _, _, _, hrow⟩ => (by cases hrow)⟩

theorem specializeRowByLiteral_ctors {literal : Literal} {row row' : Row}
    (h : specializeRowByLiteral literal row = some (some row')) :
    rowCtors row' ≤ rowCtors row := by
  match row, h with
  | .Literal lit :: patterns, h =>
      rw [specializeRowByLiteral] at h
      split at h
      · obtain rfl := Option.some.inj (Option.some.inj h)
        rw [rowCtors, Pattern.ctors, Nat.zero_add]
      · cases Option.some.inj h
  | .Anything :: patterns, h =>
      obtain rfl := Option.some.inj (Option.some.inj h)
      rw [rowCtors, Pattern.ctors, Nat.zero_add]

theorem specializeRowByAnything_ctors {row row' : Row}
    (h : specializeRowByAnything row = some row') : rowCtors row' = rowCtors row := by
  match row, h with
  | .Anything :: patterns, h =>
      obtain rfl := Option.some.inj h
      rw [rowCtors, Pattern.ctors, Nat.zero_add]

theorem specialize_cons {f : Row → Option (Option Row)} {row : Row} {rows m : List Row}
    (h : specialize f (row :: rows) = some m) :
    ∃ r rs, f row = some r ∧ specialize f rows = some rs ∧ m = r.toList ++ rs := by
  rw [specialize] at h
  split at h
  · next r rs hr hrs => exact ⟨r, rs, hr, hrs, (Option.some.inj h).symm⟩
  · cases h

/-- Specialising a matrix by what adds no constructors adds none. -/
theorem matrixCtors_specialize {f : Row → Option (Option Row)}
    (hf : ∀ row row', f row = some (some row') → rowCtors row' ≤ rowCtors row)
    {matrix m : List Row} (h : specialize f matrix = some m) :
    matrixCtors m ≤ matrixCtors matrix := by
  induction matrix generalizing m with
  | nil =>
      obtain rfl := Option.some.inj h
      exact Nat.le_refl _
  | cons row rows ih =>
      obtain ⟨r, rs, hr, hrs, rfl⟩ := specialize_cons h
      have hle := ih hrs
      rw [matrixCtors_cons]
      cases r with
      | none =>
          rw [Option.toList_none, List.nil_append]
          omega
      | some row' =>
          have := hf row row' hr
          rw [Option.toList_some, List.singleton_append, matrixCtors_cons]
          omega

/-- Specialising by a constructor takes one away from each row that starts with one,
    or takes the row away. -/
theorem matrixCtors_specializeCtor {name : String} {arity : Nat} {matrix m : List Row}
    (hctor : ∃ row ∈ matrix, StartsWithCtor row)
    (h : specialize (specializeRowByCtor name arity) matrix = some m) :
    matrixCtors m < matrixCtors matrix := by
  induction matrix generalizing m with
  | nil =>
      obtain ⟨row, hrow, -⟩ := hctor
      exact absurd hrow List.not_mem_nil
  | cons row rows ih =>
      obtain ⟨r, rs, hr, hrs, rfl⟩ := specialize_cons h
      have hle := matrixCtors_specialize
        (fun a b hab => (specializeRowByCtor_ctors hab).1) hrs
      rw [matrixCtors_cons]
      by_cases hstart : StartsWithCtor row
      · have hpos : 0 < rowCtors row := by
          obtain ⟨union, name', args, rest, rfl⟩ := hstart
          rw [rowCtors, Pattern.ctors]
          omega
        cases r with
        | none =>
            rw [Option.toList_none, List.nil_append]
            omega
        | some row' =>
            have := (specializeRowByCtor_ctors hr).2 hstart
            rw [Option.toList_some, List.singleton_append, matrixCtors_cons]
            omega
      · have hrest : ∃ row' ∈ rows, StartsWithCtor row' := by
          obtain ⟨row', hmem, hs⟩ := hctor
          rcases List.mem_cons.mp hmem with rfl | hmem
          · exact absurd hs hstart
          · exact ⟨row', hmem, hs⟩
        have hlt := ih hrest hrs
        cases r with
        | none =>
            rw [Option.toList_none, List.nil_append]
            omega
        | some row' =>
            have := (specializeRowByCtor_ctors hr).1
            rw [Option.toList_some, List.singleton_append, matrixCtors_cons]
            omega

theorem matrixCtors_defaultRows (matrix : List Row) :
    matrixCtors (defaultRows matrix) ≤ matrixCtors matrix := by
  rw [defaultRows]
  induction matrix with
  | nil => exact Nat.le_refl _
  | cons row rows ih =>
      rw [matrixCtors_cons]
      cases hr : specializeRowByAnything row with
      | none =>
          rw [List.filterMap_cons_none hr]
          omega
      | some row' =>
          have := specializeRowByAnything_ctors hr
          rw [List.filterMap_cons_some hr, matrixCtors_cons]
          omega

theorem collectCtorsHelp_of_not {ctors : List (String × Can.Union)} {row : Row}
    (h : ¬ StartsWithCtor row) : collectCtorsHelp ctors row = ctors := by
  match row, h with
  | [], _ => rfl
  | .Anything :: _, _ => rfl
  | .Literal _ :: _, _ => rfl
  | .Ctor union name args :: rest, h => exact absurd ⟨union, name, args, rest, rfl⟩ h

/-- A column with a constructor has a row that starts with one. -/
theorem startsWithCtor_of_collectCtors {matrix : List Row} (h : collectCtors matrix ≠ []) :
    ∃ row ∈ matrix, StartsWithCtor row := by
  by_contra hno
  have hfold : ∀ rows : List Row, (∀ row ∈ rows, ¬ StartsWithCtor row) →
      rows.foldl collectCtorsHelp [] = [] := by
    intro rows hrows
    induction rows with
    | nil => rfl
    | cons row rows ih =>
        rw [List.foldl_cons, collectCtorsHelp_of_not (hrows row List.mem_cons_self)]
        exact ih (fun row' hrow' => hrows row' (List.mem_cons_of_mem row hrow'))
  exact h (hfold matrix fun row hrow hs => hno ⟨row, hrow, hs⟩)

/-! ## Exhaustiveness -/

/-- `isExhaustive`; `andMap` is `List.Extra.andMap` at rows. -/
def isExhaustive (andMap : List Row → List (Row → Row) → List Row) (matrix : List Row)
    (n : Nat) : Option (List Row) :=
  if matrix.isEmpty then some [List.replicate n .Anything]
  else if _hn : n = 0 then some []
  else
    match _hc : collectCtors matrix with
    | [] =>
        (isExhaustive andMap (defaultRows matrix) (n - 1)).map
          (List.map (.Anything :: ·))
    | (name, alts) :: others =>
        if ((name, alts) :: others).length < alts.numAlts then
          (isExhaustive andMap (defaultRows matrix) (n - 1)).map fun rest =>
            andMap rest
              ((alts.alts.filterMap (isMissing alts ((name, alts) :: others))).map List.cons)
        else
          (alts.alts.mapM fun (c : Can.Ctor) =>
            match _hs : specialize (specializeRowByCtor c.name c.numArgs) matrix with
            | none => none
            | some m =>
                (isExhaustive andMap m (c.numArgs + n - 1)).map
                  (List.map (recoverCtor alts c.name c.numArgs))).map List.flatten
termination_by (matrixCtors matrix, n)
decreasing_by
  · have := matrixCtors_defaultRows matrix
    rcases Nat.lt_or_eq_of_le this with hlt | heq
    · exact Prod.Lex.left _ _ hlt
    · rw [heq]
      exact Prod.Lex.right _ (by omega)
  · have := matrixCtors_defaultRows matrix
    rcases Nat.lt_or_eq_of_le this with hlt | heq
    · exact Prod.Lex.left _ _ hlt
    · rw [heq]
      exact Prod.Lex.right _ (by omega)
  · refine Prod.Lex.left _ _ (matrixCtors_specializeCtor (startsWithCtor_of_collectCtors ?_) _hs)
    rw [_hc]
    exact List.cons_ne_nil _ _

/-! ## Redundancy -/

theorem collectCtors_of_isComplete {matrix : List Row} {alts : List Can.Ctor}
    (h : isComplete matrix = .Yes alts) : collectCtors matrix ≠ [] := by
  intro hnil
  rw [isComplete, hnil] at h
  cases h

/-- `isUseful`. -/
def isUseful (matrix : List Row) (vector : Row) : Option Bool :=
  if matrix.isEmpty then some true
  else
    match vector with
    | [] => some false
    | .Ctor _ name args :: patterns =>
        match _hs : specialize (specializeRowByCtor name args.length) matrix with
        | none => none
        | some m => isUseful m (args ++ patterns)
    | .Anything :: patterns =>
        match _hc : isComplete matrix with
        | .No => isUseful (defaultRows matrix) patterns
        | .Yes alts =>
            alts.anyM fun (c : Can.Ctor) =>
              match _hs : specialize (specializeRowByCtor c.name c.numArgs) matrix with
              | none => none
              | some m => isUseful m (List.replicate c.numArgs .Anything ++ patterns)
    | .Literal literal :: patterns =>
        match _hs : specialize (specializeRowByLiteral literal) matrix with
        | none => none
        | some m => isUseful m patterns
termination_by (matrixCtors matrix + rowCtors vector, vector.length)
decreasing_by
  · have := matrixCtors_specialize (fun a b hab => (specializeRowByCtor_ctors hab).1) _hs
    refine Prod.Lex.left _ _ ?_
    rw [rowCtors_append, rowCtors, Pattern.ctors]
    omega
  · have := matrixCtors_defaultRows matrix
    have hv : rowCtors (.Anything :: patterns) = rowCtors patterns := by
      rw [rowCtors, Pattern.ctors, Nat.zero_add]
    rw [hv]
    rcases Nat.lt_or_eq_of_le this with hlt | heq
    · exact Prod.Lex.left _ _ (by omega)
    · rw [heq]
      exact Prod.Lex.right _ (Nat.lt_succ_self _)
  · have := matrixCtors_specializeCtor
      (startsWithCtor_of_collectCtors (collectCtors_of_isComplete _hc)) _hs
    refine Prod.Lex.left _ _ ?_
    rw [rowCtors_append, rowCtors_replicate, rowCtors, Pattern.ctors]
    omega
  · have := matrixCtors_specialize (fun a b hab => specializeRowByLiteral_ctors hab) _hs
    have hv : rowCtors (.Literal literal :: patterns) = rowCtors patterns := by
      rw [rowCtors, Pattern.ctors, Nat.zero_add]
    rw [hv]
    rcases Nat.lt_or_eq_of_le this with hlt | heq
    · exact Prod.Lex.left _ _ (by omega)
    · rw [heq]
      exact Prod.Lex.right _ (Nat.lt_succ_self _)

/-! ## Checking a match -/

/-- `Context`. -/
inductive Context where
  | BadArg
  | BadDestruct
  | BadCase

/-- `Error`; a `Region` is a stretch of source text. -/
inductive Error (Region : Type) where
  | Incomplete (region : Region) (context : Context) (unhandled : List Pattern)
  | Redundant (region patternRegion : Region) (index : Nat)

/-- `toSimplifiedUsefulRows`; a pattern comes with its region. -/
def toSimplifiedUsefulRows {Region : Type} (overallRegion : Region) (checkedRows : List Row)
    (uncheckedPatterns : List (Region × Can.Pattern)) :
    Option (Except (Error Region) (List Row)) :=
  match uncheckedPatterns with
  | [] => some (.ok checkedRows)
  | (region, pattern) :: rest =>
      let nextRow := [simplify pattern]
      match isUseful checkedRows nextRow with
      | none => none
      | some true => toSimplifiedUsefulRows overallRegion (nextRow :: checkedRows) rest
      | some false => some (.error (.Redundant overallRegion region (checkedRows.length + 1)))

/-- `checkPatterns`, `toNonRedundantRows` included. -/
def checkPatterns {Region : Type} (andMap : List Row → List (Row → Row) → List Row)
    (region : Region) (context : Context) (patterns : List (Region × Can.Pattern))
    (errors : List (Error Region)) : Option (List (Error Region)) :=
  match toSimplifiedUsefulRows region [] patterns with
  | none => none
  | some (.error err) => some (err :: errors)
  | some (.ok matrix) =>
      match isExhaustive andMap matrix 1 with
      | none => none
      | some [] => some errors
      | some badPatterns =>
          (badPatterns.mapM List.head?).map fun unhandled =>
            .Incomplete region context unhandled :: errors

end PatternMatches

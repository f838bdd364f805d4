import EcoCompiler.PatternMatchesCheck
import EcoCompiler.DecisionTreeProofs

/-! # The checker and the decision trees

    A list of patterns that the checker accepts, and the tree that is compiled from it.  The
    checker compares the texts of two literals; the tree compares their keys.  The checker takes
    every type to have a value; the tree meets only the values there are.

    * `testKey_eq_iff`: two literals have one test exactly when they denote one value;
    * `exists_takes_filled`: a pattern that is accepted is the first to match some value, where
      types without values are filled;
    * `reached_iff`: a branch is reached when its pattern is the first to match a value of the
      type;
    * `checker_agrees_iff`: every branch is reached, and different literals are tested
      apart, exactly when different literals denote different values and no pattern is there
      for empty types alone. -/

namespace PatternMatches

variable {Γ : Universe} {Region : Type}

/-- The checker accepts the patterns: none is redundant, and none is missing. -/
def Accepts (andMap : List Row → List (Row → Row) → List Row) (region : Region)
    (patterns : List (Region × Can.Pattern)) : Prop :=
  ∃ rows, toSimplifiedUsefulRows region [] patterns = some (.ok rows)
    ∧ isExhaustive andMap rows 1 = some []

/-- The test of a literal. -/
def Literal.test : Literal → Test
  | .Chr chr => .IsChr chr
  | .Str str => .IsStr str
  | .Int int => .IsInt int

/-- The branches of a `case` with these patterns. -/
def branchesOf (patterns : List (Region × Can.Pattern)) : List (Can.Pattern × Nat) :=
  (patterns.map Prod.snd).zipIdx

/-- Pattern `k` is the leaf that the compiled tree reaches for some value. -/
def Reached (t : Γ.Ty) (patterns : List (Region × Can.Pattern)) (k : Nat) : Prop :=
  ∃ v tree, HasType Γ.shape v t ∧ DecisionTree.compile (branchesOf patterns) = some tree
    ∧ tree.eval v = some k

/-- The checker and the compiler agree: every branch is reached, and literals the checker
    treats as different have different tests. -/
structure Agree (t : Γ.Ty) (patterns : List (Region × Can.Pattern)) : Prop where
  reached : ∀ k < patterns.length, Reached t patterns k
  apart : ∀ l l', LiteralIn patterns l → LiteralIn patterns l' → l ≠ l' →
    testToComparable l.test ≠ testToComparable l'.test

/-- Pattern `k` is the first of the patterns to match the value. -/
def Takes (patterns : List (Region × Can.Pattern)) (k : Nat) (v : Value) : Prop :=
  ∃ p, patterns[k]? = some p ∧ p.2.Matches v ∧ ∀ q ∈ patterns.take k, ¬q.2.Matches v

mutual

/-- A value has a type, where a type without values is filled: every `other` is one of it. -/
def HasFilled (Γ : Universe) : Value → Γ.Ty → Prop
  | .int _, t => Γ.shape t = .int
  | .chr _, t => Γ.shape t = .chr
  | .str _, t => Γ.shape t = .str
  | .ctor name vs, t => ∃ tys, (name, tys) ∈ altsOf Γ.shape t ∧ HaveFilled Γ vs tys
  | .other _, t => Γ.shape t = .other ∨ ∀ v, ¬HasType Γ.shape v t

/-- Values have filled types, one by one. -/
def HaveFilled (Γ : Universe) : List Value → List Γ.Ty → Prop
  | [], ts => ts = []
  | v :: vs, ts => ∃ t ts', ts = t :: ts' ∧ HasFilled Γ v t ∧ HaveFilled Γ vs ts'

end

/-- No pattern is there for empty types alone: one that takes a value of the type, where types
    without values are filled, takes a value that the type has. -/
def NoneForEmpty (t : Γ.Ty) (patterns : List (Region × Can.Pattern)) : Prop :=
  ∀ k, (∃ v, HasFilled Γ v t ∧ Takes patterns k v) →
    ∃ v, HasType Γ.shape v t ∧ Takes patterns k v

/-! ## Filled types -/

mutual

/-- The values of a type are values of it when it is filled. -/
theorem hasFilled_of_hasType {v : Value} {t : Γ.Ty} (h : HasType Γ.shape v t) :
    HasFilled Γ v t := by
  cases v with
  | int n =>
      rw [HasType] at h
      rw [HasFilled]
      exact h
  | chr key =>
      rw [HasType] at h
      rw [HasFilled]
      exact h
  | str key =>
      rw [HasType] at h
      rw [HasFilled]
      exact h
  | ctor name vs =>
      rw [HasType] at h
      obtain ⟨tys, hname, hvs⟩ := h
      rw [HasFilled]
      exact ⟨tys, hname, haveFilled_of_haveTypes hvs⟩
  | other id =>
      rw [HasType] at h
      rw [HasFilled]
      exact .inl h

theorem haveFilled_of_haveTypes {vs : List Value} {ts : List Γ.Ty}
    (h : HaveTypes Γ.shape vs ts) : HaveFilled Γ vs ts := by
  cases vs with
  | nil =>
      rw [HaveTypes] at h
      rw [HaveFilled]
      exact h
  | cons v vs =>
      rw [HaveTypes] at h
      obtain ⟨t, ts', hts, hv, hvs⟩ := h
      rw [HaveFilled]
      exact ⟨t, ts', hts, hasFilled_of_hasType hv, haveFilled_of_haveTypes hvs⟩

end

theorem haveFilled_of_forall₂ {vs : List Value} {ts : List Γ.Ty}
    (h : List.Forall₂ (HasFilled Γ) vs ts) : HaveFilled Γ vs ts := by
  induction h with
  | nil => rw [HaveFilled]
  | cons hv _ ih =>
      rw [HaveFilled]
      exact ⟨_, _, rfl, hv, ih⟩

/-- Where types without values are filled, every type has one. -/
theorem populated_filled : Populated Γ (HasFilled Γ) where
  inhabited := by
    intro t
    by_cases hempty : ∀ v, ¬HasType Γ.shape v t
    · refine ⟨.other 0, ?_⟩
      rw [HasFilled]
      exact .inr hempty
    · obtain ⟨v, hv⟩ := not_forall_not.mp hempty
      exact ⟨v, hasFilled_of_hasType hv⟩
  literal := fun _ hv => hasFilled_of_hasType hv
  ctor := by
    intro name vs t tys hname hvs
    rw [HasFilled]
    exact ⟨tys, hname, haveFilled_of_forall₂ hvs⟩

mutual

/-- Where every type has a value, nothing is filled. -/
theorem hasType_of_hasFilled [Γ.AllInhabited] {v : Value} {t : Γ.Ty} (h : HasFilled Γ v t) :
    HasType Γ.shape v t := by
  cases v with
  | int n =>
      rw [HasFilled] at h
      rw [HasType]
      exact h
  | chr key =>
      rw [HasFilled] at h
      rw [HasType]
      exact h
  | str key =>
      rw [HasFilled] at h
      rw [HasType]
      exact h
  | ctor name vs =>
      rw [HasFilled] at h
      obtain ⟨tys, hname, hvs⟩ := h
      rw [HasType]
      exact ⟨tys, hname, haveTypes_of_haveFilled hvs⟩
  | other id =>
      rw [HasFilled] at h
      rw [HasType]
      rcases h with hother | hempty
      · exact hother
      · obtain ⟨v, hv⟩ := Universe.AllInhabited.inhabited t
        exact absurd hv (hempty v)

theorem haveTypes_of_haveFilled [Γ.AllInhabited] {vs : List Value} {ts : List Γ.Ty}
    (h : HaveFilled Γ vs ts) : HaveTypes Γ.shape vs ts := by
  cases vs with
  | nil =>
      rw [HaveFilled] at h
      rw [HaveTypes]
      exact h
  | cons v vs =>
      rw [HaveFilled] at h
      obtain ⟨t, ts', hts, hv, hvs⟩ := h
      rw [HaveTypes]
      exact ⟨t, ts', hts, hasType_of_hasFilled hv, haveTypes_of_haveFilled hvs⟩

end

/-- Where every type has a value, no pattern is there for empty types. -/
theorem noneForEmpty_of_inhabited [Γ.AllInhabited] (t : Γ.Ty)
    (patterns : List (Region × Can.Pattern)) : NoneForEmpty t patterns := by
  rintro k ⟨v, hv, htakes⟩
  exact ⟨v, hasType_of_hasFilled hv, htakes⟩

/-! ## Literals and their tests -/

private theorem append_left_inj_string {s a b : String} (h : s ++ a = s ++ b) : a = b := by
  have hlist := congrArg String.toList h
  rw [String.toList_append, String.toList_append] at hlist
  exact String.toList_inj.mp (List.append_cancel_left hlist)

/-- The keys of tests of different kinds start with different letters. -/
private theorem kinds_apart {a b x y : String} (hxy : x.toList.head? ≠ y.toList.head?)
    (hx : x.toList ≠ []) (hy : y.toList ≠ []) : x ++ a ≠ y ++ b := by
  intro h
  have hhead := congrArg (fun s : String => s.toList.head?) h
  simp only [String.toList_append, List.head?_append_of_ne_nil _ hx,
    List.head?_append_of_ne_nil _ hy] at hhead
  exact hxy hhead

/-- Two literals have one test exactly when they denote one value. -/
theorem testKey_eq_iff (l l' : Literal) :
    testToComparable l.test = testToComparable l'.test ↔ l.value = l'.value := by
  cases l with
  | Chr a =>
    cases l' with
    | Chr b =>
      simp only [Literal.test, testToComparable, Literal.value, Value.chr.injEq]
      exact ⟨append_left_inj_string, fun h => by rw [h]⟩
    | Str b =>
      refine ⟨fun h => absurd h (kinds_apart ?_ ?_ ?_), fun h => by cases h⟩ <;> decide
    | Int n =>
      refine ⟨fun h => absurd h (kinds_apart ?_ ?_ ?_), fun h => by cases h⟩ <;> decide
  | Str a =>
    cases l' with
    | Chr b =>
      refine ⟨fun h => absurd h (kinds_apart ?_ ?_ ?_), fun h => by cases h⟩ <;> decide
    | Str b =>
      simp only [Literal.test, testToComparable, Literal.value, Value.str.injEq]
      exact ⟨append_left_inj_string, fun h => by rw [h]⟩
    | Int n =>
      refine ⟨fun h => absurd h (kinds_apart ?_ ?_ ?_), fun h => by cases h⟩ <;> decide
  | Int m =>
    cases l' with
    | Chr b =>
      refine ⟨fun h => absurd h (kinds_apart ?_ ?_ ?_), fun h => by cases h⟩ <;> decide
    | Str b =>
      refine ⟨fun h => absurd h (kinds_apart ?_ ?_ ?_), fun h => by cases h⟩ <;> decide
    | Int n =>
      simp only [Literal.test, testToComparable, Literal.value, Value.int.injEq]
      exact ⟨fun h => Int.repr_injective (append_left_inj_string h), fun h => by rw [h]⟩

/-- Literals are tested apart exactly when different ones denote different values. -/
theorem apart_iff_separates (patterns : List (Region × Can.Pattern)) :
    (∀ l l', LiteralIn patterns l → LiteralIn patterns l' → l ≠ l' →
      testToComparable l.test ≠ testToComparable l'.test)
      ↔ Separates Literal.value patterns := by
  constructor
  · intro h l l' hl hl' hvalue
    by_contra hne
    exact h l l' hl hl' hne ((testKey_eq_iff l l').mpr hvalue)
  · intro h l l' hl hl' hne hkey
    exact hne (h l l' hl hl' ((testKey_eq_iff l l').mp hkey))

/-! ## Branches -/

theorem branchesOf_getElem {patterns : List (Region × Can.Pattern)} {k : Nat}
    {p : Region × Can.Pattern} (h : patterns[k]? = some p) :
    (branchesOf patterns)[k]? = some (p.2, k) := by
  rw [branchesOf, List.getElem?_zipIdx, List.getElem?_map, h]
  simp

/-- The compiled tree takes a value to the first pattern that matches it. -/
theorem eval_takes {t : Γ.Ty} {patterns : List (Region × Can.Pattern)}
    (htyped : ∀ p ∈ patterns, p.2.WellTyped Γ t) {v : Value} (hv : HasType Γ.shape v t) {k : Nat}
    (htakes : Takes patterns k v) :
    ∃ tree, DecisionTree.compile (branchesOf patterns) = some tree ∧ tree.eval v = some k := by
  obtain ⟨p, hp, hmatch, hfirst⟩ := htakes
  have hbranches : ∀ raw ∈ branchesOf patterns, raw.1.WellTyped Γ t := by
    intro raw hraw
    obtain ⟨q, hq, heq⟩ := List.mem_map.mp (List.fst_mem_of_mem_zipIdx hraw)
    rw [← heq]
    exact htyped q hq
  have hbranch := branchesOf_getElem hp
  have hne : branchesOf patterns ≠ [] := by
    intro hnil
    rw [hnil] at hbranch
    cases hbranch
  obtain ⟨tree, htree, hspec⟩ := DecisionTree.compile_spec hne hbranches
  refine ⟨tree, htree, ?_⟩
  have hanswers := fun raw (hraw : raw ∈ branchesOf patterns) =>
    DecisionTree.format_answers (hbranches raw hraw) hv
  have hrow : ((branchesOf patterns).map DecisionTree.format)[k]?
      = some (DecisionTree.format (p.2, k)) := by
    rw [List.getElem?_map, hbranch]
    rfl
  -- the row of the pattern is the first that holds
  refine hspec.eval v hv ?_ k (DecisionTree.firstMatch_of_getElem hrow ?_ ?_)
  · intro b hb
    obtain ⟨raw, hraw, rfl⟩ := List.mem_map.mp hb
    exact (hanswers raw hraw).1
  · exact (hanswers _ (List.mem_of_getElem? hbranch)).2.mpr hmatch
  · intro j hj c hc
    rw [List.getElem?_map, Option.map_eq_some_iff] at hc
    obtain ⟨raw, hraw, rfl⟩ := hc
    rw [(hanswers raw (List.mem_of_getElem? hraw)).2]
    have hlt : j < patterns.length := lt_trans hj (List.getElem?_eq_some_iff.mp hp).1
    have hgetj := branchesOf_getElem (List.getElem?_eq_getElem hlt)
    rw [hraw] at hgetj
    rw [Option.some_inj.mp hgetj]
    refine hfirst patterns[j] ?_
    rw [List.mem_take_iff_getElem]
    exact ⟨j, by omega, rfl⟩

/-- A value that some pattern matches is taken by the first that does. -/
theorem exists_takes {patterns : List (Region × Can.Pattern)} {v : Value}
    (h : ∃ p ∈ patterns, p.2.Matches v) : ∃ k, Takes patterns k v := by
  classical
  have hsome : ∃ k : Nat, ∃ p, patterns[k]? = some p ∧ p.2.Matches v := by
    obtain ⟨p, hp, hmatch⟩ := h
    obtain ⟨k, hk⟩ := List.mem_iff_getElem?.mp hp
    exact ⟨k, p, hk, hmatch⟩
  obtain ⟨p, hp, hmatch⟩ := Nat.find_spec hsome
  refine ⟨Nat.find hsome, p, hp, hmatch, fun q hq hq' => ?_⟩
  obtain ⟨j, hj, hget⟩ := List.mem_take_iff_getElem.mp hq
  exact Nat.find_min hsome (lt_of_lt_of_le hj (min_le_left _ _))
    ⟨q, List.getElem?_eq_some_iff.mpr ⟨_, hget⟩, hq'⟩

/-- On patterns that match every value, a branch is reached when its pattern is the first to
    match a value. -/
theorem reached_iff {t : Γ.Ty} {patterns : List (Region × Can.Pattern)}
    (htyped : ∀ p ∈ patterns, p.2.WellTyped Γ t)
    (hall : ∀ v, HasType Γ.shape v t → ∃ p ∈ patterns, p.2.Matches v) (k : Nat) :
    Reached t patterns k ↔ ∃ v, HasType Γ.shape v t ∧ Takes patterns k v := by
  constructor
  · rintro ⟨v, tree, hv, htree, heval⟩
    obtain ⟨j, hj⟩ := exists_takes (hall v hv)
    obtain ⟨tree', htree', heval'⟩ := eval_takes htyped hv hj
    rw [htree, Option.some_inj] at htree'
    rw [← htree', heval, Option.some_inj] at heval'
    exact ⟨v, hv, heval' ▸ hj⟩
  · rintro ⟨v, hv, htakes⟩
    obtain ⟨tree, htree, heval⟩ := eval_takes htyped hv htakes
    exact ⟨v, tree, hv, htree, heval⟩

/-! ## What the checker accepts -/

/-- A run that reports nothing found every pattern useful after those before it. -/
theorem isUseful_of_ok {region : Region} (done : List (Region × Can.Pattern))
    {rest : List (Region × Can.Pattern)} {rows : List Row}
    (h : toSimplifiedUsefulRows region (rowsOf done) rest = some (.ok rows)) :
    rows = rowsOf (done ++ rest) ∧ ∀ k p, rest[k]? = some p →
      isUseful (rowsOf (done ++ rest.take k)) [simplify p.2] = some true := by
  induction rest generalizing done with
  | nil =>
      cases h
      rw [List.append_nil]
      exact ⟨rfl, fun k p hp => by cases hp⟩
  | cons q rest ih =>
      rw [toSimplifiedUsefulRows] at h
      cases huse : isUseful (rowsOf done) [simplify q.2] with
      | none =>
          simp only [huse] at h
          cases h
      | some b =>
          cases b with
          | false =>
              simp only [huse] at h
              cases h
          | true =>
              simp only [huse, ← rowsOf_concat] at h
              obtain ⟨hrows, hrest⟩ := ih (done ++ [q]) h
              rw [List.append_assoc] at hrows
              refine ⟨hrows, fun k p hp => ?_⟩
              cases k with
              | zero =>
                  obtain rfl := Option.some_inj.mp hp
                  rw [List.take_zero, List.append_nil]
                  exact huse
              | succ k =>
                  have hk := hrest k p hp
                  rw [List.append_assoc] at hk
                  exact hk

/-- An accepted list matches every value of its type. -/
theorem matches_of_accepts {andMap : List Row → List (Row → Row) → List Row}
    (hlaws : AndMapLaws andMap) {t : Γ.Ty} {region : Region}
    {patterns : List (Region × Can.Pattern)} (htyped : ∀ p ∈ patterns, p.2.WellTyped Γ t)
    (haccepts : Accepts andMap region patterns) (v : Value) (hv : HasType Γ.shape v t) :
    ∃ p ∈ patterns, p.2.Matches v := by
  obtain ⟨rows, hok, hnone⟩ := haccepts
  obtain rfl := (isUseful_of_ok [] hok).1
  obtain ⟨examples, hex, hspec⟩ := isExhaustive_spec populated_filled kinded_value hlaws
    (rowsOf patterns) 1 [t] rfl (matrixTyped_rowsOf (List.Subset.refl _) htyped)
  rw [List.nil_append] at hnone
  rw [hnone, Option.some_inj] at hex
  obtain ⟨p, hp, hmatch⟩ :=
    covered_rowsOf.mp (hspec.complete hex.symm [v] (haveTypes_singleton hv))
  exact ⟨p, hp, (matches_simplify p.2 v).mp hmatch⟩

/-- Each pattern of an accepted list takes a value, where types without values are filled. -/
theorem exists_takes_filled {andMap : List Row → List (Row → Row) → List Row} {t : Γ.Ty}
    {region : Region} {patterns : List (Region × Can.Pattern)}
    (htyped : ∀ p ∈ patterns, p.2.WellTyped Γ t) (haccepts : Accepts andMap region patterns)
    (hsep : Separates Literal.value patterns) {k : Nat} (hk : k < patterns.length) :
    ∃ v, HasFilled Γ v t ∧ Takes patterns k v := by
  obtain ⟨rows, hok, -⟩ := haccepts
  have hp : patterns[k]? = some patterns[k] := List.getElem?_eq_getElem hk
  have huse := (isUseful_of_ok [] hok).2 k _ hp
  rw [List.nil_append] at huse
  have hmem : patterns[k] ∈ patterns := List.getElem_mem hk
  obtain ⟨b, hb, -, htrue⟩ := isUseful_spec populated_filled kinded_value
    (rowsOf (patterns.take k)) [simplify patterns[k].2] [t]
    (matrixTyped_rowsOf (List.take_subset k patterns) htyped)
    (rowTyped_simplify hmem (htyped _ hmem))
  rw [huse, Option.some_inj] at hb
  obtain ⟨vs, hvs, hmatch, hnot⟩ := htrue hb.symm hsep
  obtain ⟨v, rfl, hv⟩ := forall₂_single hvs
  refine ⟨v, hv, patterns[k], hp, (matches_simplify _ v).mp (rowMatches_single.mp hmatch), ?_⟩
  intro q hq hq'
  exact hnot (covered_rowsOf.mpr ⟨q, hq, (matches_simplify q.2 v).mpr hq'⟩)

/-! ## Agreement -/

/-- **EXACT CONDITION**: on patterns of one type that the checker accepts, every branch is
    reached and literals are tested apart exactly when different literals denote different
    values and no pattern is there for empty types alone. -/
theorem checker_agrees_iff {andMap : List Row → List (Row → Row) → List Row}
    (hlaws : AndMapLaws andMap) (t : Γ.Ty) (region : Region)
    (patterns : List (Region × Can.Pattern)) (htyped : ∀ p ∈ patterns, p.2.WellTyped Γ t)
    (haccepts : Accepts andMap region patterns) :
    Agree t patterns ↔ Separates Literal.value patterns ∧ NoneForEmpty t patterns := by
  have hreached := reached_iff htyped (matches_of_accepts hlaws htyped haccepts)
  constructor
  · intro hagree
    refine ⟨(apart_iff_separates patterns).mp hagree.apart, ?_⟩
    rintro k ⟨v, -, p, hp, -, -⟩
    exact (hreached k).mp (hagree.reached k (List.getElem?_eq_some_iff.mp hp).1)
  · rintro ⟨hsep, hnone⟩
    refine ⟨fun k hk => (hreached k).mpr (hnone k ?_), (apart_iff_separates patterns).mpr hsep⟩
    exact exists_takes_filled htyped haccepts hsep hk

/-! ## Two spellings of one character -/

/-- `case c of`, with the branches `'a'`, the same character as an escape, and `_`. -/
def spellings : List (Unit × Can.Pattern) :=
  [((), .PChr "a"), ((), .PChr "\\u0061"), ((), .PAnything)]

theorem isUseful_empty (vector : Row) : isUseful [] vector = some true := by
  rw [isUseful.eq_def]
  rfl

/-- A wildcard after literals is useful. -/
theorem isUseful_wildcard {matrix : List Row} (hne : ¬matrix.isEmpty = true)
    (hcomplete : isComplete matrix = .No) (hdefault : defaultRows matrix = []) :
    isUseful matrix [.Anything] = some true := by
  rw [isUseful_missing hne hcomplete, hdefault, isUseful_empty]

/-- A match that ends in a wildcard, on literals, misses nothing. -/
theorem isExhaustive_wildcard {matrix : List Row} (hne : ¬matrix.isEmpty = true)
    (hctors : collectCtors matrix = []) (hdefault : defaultRows matrix = [[]]) :
    isExhaustive zipAndMap matrix 1 = some [] := by
  have hrest : isExhaustive zipAndMap [[]] 0 = some [] := by
    rw [isExhaustive.eq_def]
    rfl
  rw [isExhaustive_none hne (by decide) hctors, hdefault]
  exact congrArg (Option.map _) hrest

theorem accepts_spellings : Accepts zipAndMap () spellings := by
  refine ⟨[[.Anything], [.Literal (.Chr "\\u0061")], [.Literal (.Chr "a")]], ?_,
    isExhaustive_wildcard (by decide) rfl rfl⟩
  have hfirst := isUseful_empty [.Literal (.Chr "a")]
  have hsecond : isUseful [[.Literal (.Chr "a")]] [.Literal (.Chr "\\u0061")] = some true := by
    have hspecial : specialize (specializeRowByLiteral (.Chr "\\u0061"))
        [[.Literal (.Chr "a")]] = some [] := by
      simp [specialize, specializeRowByLiteral]
    rw [isUseful_literal (by decide) hspecial, isUseful_empty]
  have hlast : isUseful [[.Literal (.Chr "\\u0061")], [.Literal (.Chr "a")]] [.Anything]
      = some true := isUseful_wildcard (by decide) rfl rfl
  simp only [spellings, toSimplifiedUsefulRows, simplify, hfirst, hsecond, hlast]

theorem spellings_typed : ∀ p ∈ spellings, p.2.WellTyped Sample.shapes .chr := by
  intro p hp
  simp only [spellings, List.mem_cons, List.not_mem_nil, or_false] at hp
  rcases hp with rfl | rfl | rfl
  · exact (rfl : Sample.shapes.shape .chr = .chr)
  · exact (rfl : Sample.shapes.shape .chr = .chr)
  · trivial

/-- The checker accepts two spellings of one character, and no value reaches the second. -/
theorem spellings_disagree :
    Accepts zipAndMap () spellings ∧ ¬Reached (Γ := Sample.shapes) .chr spellings 1
      ∧ ¬Agree (Γ := Sample.shapes) .chr spellings := by
  have hone : StringLiteral.valueKey "\\u0061" = StringLiteral.valueKey "a" := by
    decide +kernel
  have hunreached : ¬Reached (Γ := Sample.shapes) .chr spellings 1 := by
    have hall : ∀ v, HasType Sample.shapes.shape v .chr → ∃ p ∈ spellings, p.2.Matches v :=
      fun v _ => ⟨((), .PAnything), by simp [spellings], trivial⟩
    rw [reached_iff spellings_typed hall]
    -- what matches the escape matches the letter before it
    rintro ⟨v, -, p, hp, hmatch, hfirst⟩
    obtain rfl := Option.some_inj.mp hp
    refine hfirst ((), .PChr "a") (by simp [spellings]) ?_
    exact (show v = .chr _ from hmatch).trans (congrArg Value.chr hone)
  exact ⟨accepts_spellings, hunreached,
    fun hagree => hunreached (hagree.reached 1 (by decide))⟩

/-! ## A type without values -/

namespace Outcome

/-- `Int`, `type Never = JustOneMore Never` and `Result Never Int`. -/
inductive Ty where
  | int
  | never
  | result

def basics : Can.ModuleName := { author := "elm", pkg := "core", moduleName := "Basics" }

def neverUnion : Can.Union :=
  { alts := [{ name := "JustOneMore", index := 0, numArgs := 1 }]
    numAlts := 1
    opts := .Unbox }

def resultUnion : Can.Union :=
  { alts := [{ name := "Ok", index := 0, numArgs := 1 },
    { name := "Err", index := 1, numArgs := 1 }]
    numAlts := 2
    opts := .Normal }

def shapeOf : Ty → Shape Ty
  | .int => .int
  | .never => .custom basics neverUnion [[.never]]
  | .result => .custom basics resultUnion [[.int], [.never]]

theorem declares_never : Declares neverUnion [[Ty.never]] where
  numAlts := rfl
  nonempty := List.cons_ne_nil _ _
  names := by decide
  lengths := rfl
  numArgs := by
    intro i c tys hc htys
    rcases i with _ | i
    · cases hc
      cases htys
      exact ⟨rfl, rfl⟩
    · cases hc

theorem declares_result : Declares resultUnion [[Ty.int], [Ty.never]] where
  numAlts := rfl
  nonempty := List.cons_ne_nil _ _
  names := by decide
  lengths := rfl
  numArgs := by
    intro i c tys hc htys
    rcases i with _ | _ | i
    · cases hc
      cases htys
      exact ⟨rfl, rfl⟩
    · cases hc
      cases htys
      exact ⟨rfl, rfl⟩
    · cases hc

/-- The types of the program. -/
def outcomes : Universe where
  Ty := Ty
  shape := shapeOf
  custom := by
    rintro (_ | _ | _) home union args ⟨⟩
    · exact declares_never
    · exact declares_result
  bool := by
    rintro (_ | _ | _) union ⟨⟩

/-- `case r of`, with the branches `Ok 1` and `_`. -/
def branches : List (Unit × Can.Pattern) :=
  [((), .PCtor basics "Result" resultUnion "Ok" 0 [.PInt 1]), ((), .PAnything)]

theorem branches_typed : ∀ p ∈ branches, p.2.WellTyped outcomes .result := by
  intro p hp
  rcases List.mem_pair.mp hp with rfl | rfl
  · exact ⟨[[.int], [.never]], _, _, rfl, rfl, rfl, rfl, _, _, rfl, rfl, rfl⟩
  · trivial

theorem accepts_branches : Accepts zipAndMap () branches := by
  refine ⟨[[.Anything], [.Ctor resultUnion "Ok" [.Literal (.Int 1)]]], ?_, ?_⟩
  · have hfirst := isUseful_empty [.Ctor resultUnion "Ok" [.Literal (.Int 1)]]
    have hlast : isUseful [[.Ctor resultUnion "Ok" [.Literal (.Int 1)]]] [.Anything]
        = some true := isUseful_wildcard (by decide) rfl rfl
    simp only [branches, toSimplifiedUsefulRows, simplify, simplifyArgs, hfirst, hlast]
  · rw [isExhaustive_missing (by decide) (by decide)
      (show collectCtors _ = ("Ok", resultUnion) :: [] from rfl) (by decide)]
    show Option.map _ (isExhaustive zipAndMap [[]] 0) = _
    rw [isExhaustive.eq_def]
    rfl

theorem branches_separate : Separates Literal.value branches := by
  have hone : ∀ l, LiteralIn branches l → l = .Int 1 := by
    rintro l ⟨p, hp, hl⟩
    rcases List.mem_pair.mp hp with rfl | rfl
    · exact List.mem_singleton.mp hl
    · exact absurd hl List.not_mem_nil
  intro l l' hl hl' _
  rw [hone l hl, hone l' hl']

/-- Both branches are taken by an `Ok`, though `Never` has no value. -/
theorem noneForEmpty_branches : NoneForEmpty (Γ := outcomes) .result branches := by
  have hok : ∀ n, HasType outcomes.shape (.ctor "Ok" [.int n]) .result :=
    fun n => ⟨[.int], List.mem_cons_self, .int, [], rfl, rfl, rfl⟩
  rintro k ⟨v, -, p, hp, -, -⟩
  rcases k with _ | _ | k
  · refine ⟨.ctor "Ok" [.int 1], hok 1, _, rfl, ⟨_, rfl, _, _, rfl, rfl, rfl⟩, ?_⟩
    exact fun q hq => absurd hq List.not_mem_nil
  · refine ⟨.ctor "Ok" [.int 2], hok 2, _, rfl, trivial, ?_⟩
    intro q hq hq'
    obtain rfl := List.mem_singleton.mp hq
    obtain ⟨vs, hvs, w, ws, rfl, hw, -⟩ := hq'
    obtain ⟨rfl, -⟩ := List.cons.inj (Value.ctor.inj hvs).2
    exact absurd (Value.int.inj hw) (by decide)
  · cases hp

end Outcome

/-- A match at `Result Never Int` that agrees. -/
theorem checker_agrees_iff_result : Agree (Γ := Outcome.outcomes) .result Outcome.branches :=
  (checker_agrees_iff zipAndMap_laws (Γ := Outcome.outcomes) .result () Outcome.branches
    Outcome.branches_typed Outcome.accepts_branches).mpr
    ⟨Outcome.branches_separate, Outcome.noneForEmpty_branches⟩

end PatternMatches

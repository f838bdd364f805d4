import EcoCompiler.PatternMatchesProofs

/-! # Checking a match

    `toSimplifiedUsefulRows` and `isExhaustive` on the patterns of one match, read as
    patterns of values.

    * `checker_exact`: the first redundant pattern is reported, and otherwise what the
      match misses;
    * `literalExample_overlaps`: an example may match a value that a literal matches. -/

namespace PatternMatches

variable {Γ : Universe} {den : Reading} {Region : Type}

/-- The literals of the patterns of a match. -/
def LiteralIn (patterns : List (Region × Can.Pattern)) (literal : Literal) : Prop :=
  ∃ p ∈ patterns, literal ∈ (simplify p.2).literals

/-- Different literals of the match are different values. -/
def Separates (den : Reading) (patterns : List (Region × Can.Pattern)) : Prop :=
  ∀ l l', LiteralIn patterns l → LiteralIn patterns l' → den l = den l' → l = l'

/-- Some pattern of the match matches the value. -/
def Handled (den : Reading) (patterns : List (Region × Can.Pattern)) (v : Value) : Prop :=
  ∃ p ∈ patterns, (simplify p.2).Matches den v

/-- Pattern `k` matches nothing that the patterns before it do not. -/
def RedundantAt (den : Reading) (t : Γ.Ty) (patterns : List (Region × Can.Pattern)) (k : Nat) :
    Prop :=
  ∃ p, patterns[k]? = some p ∧ ∀ v, HasType Γ.shape v t → (simplify p.2).Matches den v →
    Handled den (patterns.take k) v

/-- The rows of the patterns, last first. -/
def rowsOf (patterns : List (Region × Can.Pattern)) : List Row :=
  (patterns.map fun p => [simplify p.2]).reverse

theorem mem_rowsOf {patterns : List (Region × Can.Pattern)} {row : Row} :
    row ∈ rowsOf patterns ↔ ∃ p ∈ patterns, [simplify p.2] = row := by
  rw [rowsOf, List.mem_reverse, List.mem_map]

theorem rowsOf_concat (patterns : List (Region × Can.Pattern)) (p : Region × Can.Pattern) :
    rowsOf (patterns ++ [p]) = [simplify p.2] :: rowsOf patterns := by
  rw [rowsOf, List.map_append, List.reverse_append]
  rfl

theorem rowMatches_single {p : Pattern} {v : Value} :
    RowMatches den [p] [v] ↔ p.Matches den v := by
  rw [rowMatches_cons, rowMatches_nil]
  exact and_iff_left rfl

theorem covered_rowsOf {patterns : List (Region × Can.Pattern)} {v : Value} :
    Covered den (rowsOf patterns) [v] ↔ Handled den patterns v := by
  constructor
  · rintro ⟨row, hrow, hmatch⟩
    obtain ⟨p, hp, rfl⟩ := mem_rowsOf.mp hrow
    exact ⟨p, hp, rowMatches_single.mp hmatch⟩
  · rintro ⟨p, hp, hmatch⟩
    exact ⟨_, mem_rowsOf.mpr ⟨p, hp, rfl⟩, rowMatches_single.mpr hmatch⟩

theorem haveTypes_single {vs : List Value} {t : Γ.Ty} (h : HaveTypes Γ.shape vs [t]) :
    ∃ v, vs = [v] ∧ HasType Γ.shape v t := by
  obtain ⟨v, ws, rfl, hv, hws⟩ := haveTypes_of_cons h
  obtain rfl := List.length_eq_zero_iff.mp (haveTypes_length hws)
  exact ⟨v, rfl, hv⟩

theorem forall₂_single {Has : Value → Γ.Ty → Prop} {vs : List Value} {t : Γ.Ty}
    (h : List.Forall₂ Has vs [t]) : ∃ v, vs = [v] ∧ Has v t := by
  obtain ⟨v, ws, hv, hws, rfl⟩ := List.forall₂_cons_right_iff.mp h
  rw [List.forall₂_nil_right_iff] at hws
  rw [hws]
  exact ⟨v, rfl, hv⟩

theorem haveTypes_singleton {v : Value} {t : Γ.Ty} (h : HasType Γ.shape v t) :
    HaveTypes Γ.shape [v] [t] := by
  rw [haveTypes_cons, HaveTypes]
  exact ⟨h, rfl⟩

/-- The row of a typed pattern. -/
theorem rowTyped_simplify {patterns : List (Region × Can.Pattern)} {t : Γ.Ty}
    {p : Region × Can.Pattern} (hp : p ∈ patterns) (h : p.2.WellTyped Γ t) :
    RowTyped Γ (LiteralIn patterns) [simplify p.2] [t] := by
  rw [rowTyped_cons, RowTyped]
  exact ⟨typed_simplify h fun l hl => ⟨p, hp, hl⟩, rfl⟩

theorem matrixTyped_rowsOf {patterns done : List (Region × Can.Pattern)} {t : Γ.Ty}
    (hsub : done ⊆ patterns) (h : ∀ p ∈ patterns, p.2.WellTyped Γ t) :
    MatrixTyped Γ (LiteralIn patterns) (rowsOf done) [t] := by
  intro row hrow
  obtain ⟨p, hp, rfl⟩ := mem_rowsOf.mp hrow
  exact rowTyped_simplify (hsub hp) (h p (hsub hp))

/-- One pattern: whether it is useful after those already checked. -/
private theorem isUseful_step [Γ.AllInhabited] (hden : Kinded den)
    {patterns done rest : List (Region × Can.Pattern)}
    {p : Region × Can.Pattern} {t : Γ.Ty} (hsplit : patterns = done ++ p :: rest)
    (htyped : ∀ p ∈ patterns, p.2.WellTyped Γ t) :
    ∃ b, isUseful (rowsOf done) [simplify p.2] = some b
      ∧ (b = false → RedundantAt den t patterns done.length)
      ∧ (b = true → Separates den patterns → ¬RedundantAt den t patterns done.length) := by
  have hp : p ∈ patterns := by
    rw [hsplit]
    exact List.mem_append_right _ List.mem_cons_self
  have hdone : done ⊆ patterns := by
    rw [hsplit]
    exact List.subset_append_left _ _
  have hget : patterns[done.length]? = some p := by
    rw [hsplit, List.getElem?_append_right (Nat.le_refl _), Nat.sub_self]
    rfl
  have htake : patterns.take done.length = done := by
    rw [hsplit, List.take_left']
    rfl
  obtain ⟨b, hb, hfalse, htrue⟩ := isUseful_spec populated_types hden (rowsOf done)
    [simplify p.2] [t] (matrixTyped_rowsOf hdone htyped) (rowTyped_simplify hp (htyped p hp))
  refine ⟨b, hb, fun h => ⟨p, hget, ?_⟩, fun h hsep => ?_⟩
  · intro v hv hmatch
    rw [htake, ← covered_rowsOf]
    exact hfalse h [v] (haveTypes_singleton hv) (rowMatches_single.mpr hmatch)
  · rintro ⟨q, hq, hall⟩
    obtain rfl := Option.some.inj (hget.symm.trans hq)
    obtain ⟨vs, hvs, hmatch, hnot⟩ := htrue h hsep
    obtain ⟨v, rfl, hv⟩ := forall₂_single hvs
    rw [covered_rowsOf] at hnot
    rw [htake] at hall
    exact hnot (hall v hv (rowMatches_single.mp hmatch))

/-- What the redundancy check says of a match: the first pattern that adds nothing, or
    the rows of a match without one. -/
def RedundancySpec (den : Reading) (t : Γ.Ty) (region : Region)
    (patterns : List (Region × Can.Pattern)) (result : Except (Error Region) (List Row)) : Prop :=
  (∃ k p, result = .error (.Redundant region p.1 (k + 1)) ∧ patterns[k]? = some p
    ∧ RedundantAt den t patterns k
    ∧ (Separates den patterns → ∀ j < k, ¬RedundantAt den t patterns j))
  ∨ (result = .ok (rowsOf patterns)
    ∧ (Separates den patterns → ∀ k, ¬RedundantAt den t patterns k))

/-- The patterns in turn: `done` are checked, and none of them was redundant. -/
private theorem toSimplifiedUsefulRows_run [Γ.AllInhabited] (hden : Kinded den) (t : Γ.Ty)
    (region : Region)
    (patterns done rest : List (Region × Can.Pattern)) (hsplit : patterns = done ++ rest)
    (htyped : ∀ p ∈ patterns, p.2.WellTyped Γ t)
    (hdone : Separates den patterns → ∀ j < done.length, ¬RedundantAt den t patterns j) :
    ∃ result, toSimplifiedUsefulRows region (rowsOf done) rest = some result
      ∧ RedundancySpec den t region patterns result := by
  induction rest generalizing done with
  | nil =>
      rw [List.append_nil] at hsplit
      subst hsplit
      refine ⟨_, rfl, .inr ⟨rfl, fun hsep k => ?_⟩⟩
      rintro ⟨p, hp, hall⟩
      have hk := (List.getElem?_eq_some_iff.mp hp).1
      exact hdone hsep k hk ⟨p, hp, hall⟩
  | cons p rest ih =>
      obtain ⟨b, hb, hfalse, htrue⟩ := isUseful_step hden hsplit htyped
      have hget : patterns[done.length]? = some p := by
        rw [hsplit, List.getElem?_append_right (Nat.le_refl _), Nat.sub_self]
        rfl
      rw [toSimplifiedUsefulRows]
      -- the first pattern that is not useful ends the check
      cases b with
      | false =>
          have hlen : (rowsOf done).length = done.length := by
            rw [rowsOf, List.length_reverse, List.length_map]
          refine ⟨.error (.Redundant region p.1 (done.length + 1)), ?_,
            .inl ⟨done.length, p, rfl, hget, hfalse rfl, hdone⟩⟩
          simp only [hb, hlen]
      | true =>
          simp only [hb, ← rowsOf_concat]
          refine ih (done ++ [p]) (by rw [hsplit, List.append_assoc]; rfl) ?_
          intro hsep j hj
          rw [List.length_append, List.length_singleton] at hj
          rcases Nat.lt_or_eq_of_le (Nat.le_of_lt_succ hj) with hlt | rfl
          · exact hdone hsep j hlt
          · exact htrue rfl hsep

/-- The redundancy check on a typed match. -/
theorem toSimplifiedUsefulRows_spec [Γ.AllInhabited] (hden : Kinded den) (t : Γ.Ty)
    (region : Region)
    (patterns : List (Region × Can.Pattern)) (htyped : ∀ p ∈ patterns, p.2.WellTyped Γ t) :
    ∃ result, toSimplifiedUsefulRows region [] patterns = some result
      ∧ RedundancySpec den t region patterns result :=
  toSimplifiedUsefulRows_run hden t region patterns [] patterns rfl htyped
    fun _ j hj => absurd hj (Nat.not_lt_zero j)

/-- What the examples say of a match: there is none exactly when every value is handled,
    and one stands for values that are not, up to those with a literal of the match
    inside. -/
def ExamplesSpec (den : Reading) (t : Γ.Ty) (patterns : List (Region × Can.Pattern))
    (examples : List Row) : Prop :=
  (examples = [] ↔ ∀ v, HasType Γ.shape v t → Handled den patterns v)
  ∧ ∀ e ∈ examples, ∃ p, e = [p]
    ∧ (∃ v, HasType Γ.shape v t ∧ p.Matches den v ∧ ¬Handled den patterns v)
    ∧ ∀ v, HasType Γ.shape v t → (∀ w ∈ parts v, ∀ l, LiteralIn patterns l → w ≠ den l) →
      p.Matches den v → ¬Handled den patterns v

theorem isExhaustive_rowsOf [Γ.AllInhabited] (hden : Kinded den)
    {andMap : List Row → List (Row → Row) → List Row} (hlaws : AndMapLaws andMap) (t : Γ.Ty)
    (patterns : List (Region × Can.Pattern)) (htyped : ∀ p ∈ patterns, p.2.WellTyped Γ t) :
    ∃ examples, isExhaustive andMap (rowsOf patterns) 1 = some examples
      ∧ ExamplesSpec den t patterns examples := by
  obtain ⟨examples, hex, hspec⟩ := isExhaustive_spec populated_types hden hlaws (rowsOf patterns)
    1 [t] rfl (matrixTyped_rowsOf (List.Subset.refl _) htyped)
  refine ⟨examples, hex, ⟨fun h v hv => ?_, fun h => hspec.eq_nil fun vs hvs => ?_⟩, ?_⟩
  · exact covered_rowsOf.mp (hspec.complete h [v] (haveTypes_singleton hv))
  · obtain ⟨v, rfl, hv⟩ := haveTypes_single hvs
    exact covered_rowsOf.mpr (h v hv)
  · intro e he
    obtain ⟨p, rfl⟩ := List.length_eq_one_iff.mp (hspec.length e he)
    refine ⟨p, rfl, ?_, ?_⟩
    · obtain ⟨vs, hvs, hmatch, hnot⟩ := hspec.missed _ he
      obtain ⟨v, rfl, hv⟩ := forall₂_single hvs
      exact ⟨v, hv, rowMatches_single.mp hmatch, fun h => hnot (covered_rowsOf.mpr h)⟩
    · intro v hv hav hmatch hhandled
      refine hspec.avoiding _ he [v] (haveTypes_singleton hv) ?_ (rowMatches_single.mpr hmatch)
        (covered_rowsOf.mpr hhandled)
      rw [Avoids, partsAll, partsAll, List.append_nil]
      exact hav

/-- The pattern checker is exact: on the patterns of one type it reports the first pattern
    that adds nothing to the ones before it, and without one the examples tell whether the
    match is exhaustive. -/
theorem checker_exact [Γ.AllInhabited] (hden : Kinded den)
    {andMap : List Row → List (Row → Row) → List Row}
    (hlaws : AndMapLaws andMap) (t : Γ.Ty) (region : Region)
    (patterns : List (Region × Can.Pattern)) (htyped : ∀ p ∈ patterns, p.2.WellTyped Γ t) :
    ∃ result, toSimplifiedUsefulRows region [] patterns = some result
      ∧ RedundancySpec den t region patterns result
      ∧ ∀ rows, result = .ok rows → ∃ examples, isExhaustive andMap rows 1 = some examples
        ∧ ExamplesSpec den t patterns examples := by
  obtain ⟨result, hres, hspec⟩ := toSimplifiedUsefulRows_spec hden t region patterns htyped
  refine ⟨result, hres, hspec, ?_⟩
  rintro rows rfl
  rcases hspec with ⟨k, p, heq, -⟩ | ⟨heq, -⟩
  · cases heq
  · rw [Except.ok.inj heq]
    exact isExhaustive_rowsOf hden hlaws t patterns htyped

/-- One function for each argument, in order. -/
def zipAndMap (xs : List Row) (fs : List (Row → Row)) : List Row :=
  List.zipWith (fun f x => f x) fs xs

theorem zipAndMap_laws : AndMapLaws zipAndMap where
  results := by
    intro xs fs r hr
    rw [zipAndMap] at hr
    obtain ⟨i, hi, rfl⟩ := List.mem_iff_getElem.mp hr
    rw [List.getElem_zipWith]
    exact ⟨_, List.getElem_mem _, _, List.getElem_mem _, rfl⟩
  nonempty := by
    intro xs fs h
    rw [zipAndMap, List.zipWith_eq_nil_iff] at h
    exact h.symm

/-- A match on a `Shape`, whose last pattern adds nothing to the three before it. -/
def overlapping : List (Nat × Can.Pattern) :=
  [(1, Sample.dot), (2, Sample.line .PAnything (.PList [])),
    (3, Sample.line (.PVar "n") (.PCons .PAnything (.PVar "rest"))),
    (4, Sample.line (.PInt 1) .PAnything)]

theorem overlapping_typed : ∀ p ∈ overlapping, p.2.WellTyped Sample.shapes .shape := by
  intro p hp
  simp only [overlapping, List.mem_cons, List.not_mem_nil, or_false] at hp
  rcases hp with rfl | rfl | rfl | rfl
  · exact Sample.dot_typed
  · exact Sample.line_typed trivial ⟨.int, rfl, trivial⟩
  · exact Sample.line_typed trivial ⟨.int, rfl, trivial, trivial⟩
  · exact Sample.line_typed rfl trivial

/-- The check of the match on a `Shape`. -/
theorem checker_exact_shapes :
    ∃ result, toSimplifiedUsefulRows 0 [] overlapping = some result
      ∧ RedundancySpec (Γ := Sample.shapes) Literal.value .shape 0 overlapping result
      ∧ ∀ rows, result = .ok rows → ∃ examples, isExhaustive zipAndMap rows 1 = some examples
        ∧ ExamplesSpec (Γ := Sample.shapes) Literal.value .shape overlapping examples :=
  checker_exact kinded_value zipAndMap_laws (Γ := Sample.shapes) .shape 0 overlapping
    overlapping_typed

/-- A match on the integer `1` alone misses `_`, which matches `1` too. -/
theorem literalExample_overlaps :
    toSimplifiedUsefulRows () [] [((), Can.Pattern.PInt 1)] = some (.ok [[.Literal (.Int 1)]])
      ∧ isExhaustive zipAndMap [[.Literal (.Int 1)]] 1 = some [[.Anything]]
      ∧ HasType Sample.shapes.shape (.int 1) .int
      ∧ Pattern.Anything.Matches Literal.value (.int 1)
      ∧ RowMatches Literal.value [.Literal (.Int 1)] [.int 1] := by
  refine ⟨?_, ?_, ?_, ?_, ?_⟩
  · simp [toSimplifiedUsefulRows, isUseful.eq_def, simplify]
  · rw [isExhaustive_none (by decide) (by decide) rfl]
    show Option.map _ (isExhaustive zipAndMap [] 0) = _
    simp [isExhaustive]
  · show Sample.shapes.shape .int = .int
    rfl
  · rw [Pattern.Matches]
    trivial
  · rw [rowMatches_single, Pattern.Matches, Literal.value]

end PatternMatches

import EcoCompiler.PatternMatches

/-! # What simplified patterns match

    The values of a simplified pattern and of a row, relative to a reading `den` of
    literals as values, and the types they are patterns of.

    * `matches_simplify`: a canonical pattern and its simplified form match the same
      values;
    * `typed_simplify`: and are patterns of the same types;
    * `row_inhabited`: where every type has a value, every typed row matches something. -/

namespace PatternMatches

/-! ## Matching -/

/-- A reading of literals as values. -/
abbrev Reading := Literal → Value

/-- The value a literal denotes. -/
def Literal.value : Literal → Value
  | .Chr text => .chr (StringLiteral.valueKey text)
  | .Str text => .str (StringLiteral.valueKey text)
  | .Int n => .int n

section
variable (den : Reading)

mutual

/-- What a simplified pattern matches. -/
def Pattern.Matches : Pattern → Value → Prop
  | .Anything, _ => True
  | .Literal literal, v => v = den literal
  | .Ctor _ name args, v => ∃ vs, v = .ctor name vs ∧ RowMatches args vs

/-- A row matches a list of values, one by one. -/
def RowMatches : List Pattern → List Value → Prop
  | [], vs => vs = []
  | p :: ps, vs => ∃ w ws, vs = w :: ws ∧ p.Matches w ∧ RowMatches ps ws

end

/-- Some row of the matrix matches. -/
def Covered (matrix : List Row) (vs : List Value) : Prop :=
  ∃ row ∈ matrix, RowMatches den row vs

end

section
variable {den : Reading}

@[simp] theorem rowMatches_nil {vs : List Value} : RowMatches den [] vs ↔ vs = [] := by
  rw [RowMatches]

/-- A row matches column by column. -/
theorem rowMatches_cons {p : Pattern} {ps : Row} {w : Value} {ws : List Value} :
    RowMatches den (p :: ps) (w :: ws) ↔ p.Matches den w ∧ RowMatches den ps ws := by
  rw [RowMatches]
  constructor
  · rintro ⟨w', ws', heq, hw, hws⟩
    obtain ⟨rfl, rfl⟩ := List.cons.inj heq
    exact ⟨hw, hws⟩
  · rintro ⟨hw, hws⟩
    exact ⟨w, ws, rfl, hw, hws⟩

theorem rowMatches_length {row : Row} {vs : List Value} (h : RowMatches den row vs) :
    row.length = vs.length := by
  induction row generalizing vs with
  | nil => rw [rowMatches_nil.mp h]; rfl
  | cons p ps ih =>
      rw [RowMatches] at h
      obtain ⟨w, ws, rfl, -, hws⟩ := h
      rw [List.length_cons, List.length_cons, ih hws]

/-- Rows after each other match values after each other. -/
theorem rowMatches_append {a b : Row} {ws vs : List Value} (hlen : a.length = ws.length) :
    RowMatches den (a ++ b) (ws ++ vs) ↔ RowMatches den a ws ∧ RowMatches den b vs := by
  induction a generalizing ws with
  | nil =>
      obtain rfl := List.length_eq_zero_iff.mp hlen.symm
      exact ⟨fun h => ⟨rowMatches_nil.mpr rfl, h⟩, fun h => h.2⟩
  | cons p a ih =>
      match ws, hlen with
      | w :: ws, hlen =>
          rw [List.cons_append, List.cons_append, rowMatches_cons, rowMatches_cons,
            ih (Nat.succ.inj hlen), and_assoc]

/-- Wildcards match anything. -/
theorem rowMatches_replicate (ws : List Value) :
    RowMatches den (List.replicate ws.length .Anything) ws := by
  induction ws with
  | nil => exact rowMatches_nil.mpr rfl
  | cons w ws ih =>
      rw [List.length_cons, List.replicate_succ, rowMatches_cons, Pattern.Matches]
      exact ⟨trivial, ih⟩

/-- A constructor pattern matches by its arguments. -/
theorem matches_ctor {union : Can.Union} {name : String} {args : Row} {vs : List Value} :
    (Pattern.Ctor union name args).Matches den (.ctor name vs) ↔ RowMatches den args vs := by
  rw [Pattern.Matches]
  constructor
  · rintro ⟨vs', heq, h⟩
    obtain ⟨-, rfl⟩ := Value.ctor.inj heq
    exact h
  · intro h
    exact ⟨vs, rfl, h⟩

end

/-! ## Canonical patterns and their simplified form -/

mutual

/-- A pattern and its simplified form match the same values. -/
theorem matches_simplify (p : Can.Pattern) (v : Value) :
    (simplify p).Matches Literal.value v ↔ p.Matches v := by
  cases p with
  | PAnything => simp only [simplify, Pattern.Matches, Can.Pattern.Matches]
  | PVar name => simp only [simplify, Pattern.Matches, Can.Pattern.Matches]
  | PRecord fields => simp only [simplify, Pattern.Matches, Can.Pattern.Matches]
  | PAlias q name =>
      rw [simplify, Can.Pattern.Matches]
      exact matches_simplify q v
  | PUnit => simp [simplify, Pattern.Matches, Can.Pattern.Matches, RowMatches]
  -- the constructors that the checker makes up are those of the values
  | PTuple a b =>
      simp only [simplify, Pattern.Matches, Can.Pattern.Matches, RowMatches]
      constructor
      · rintro ⟨vs, rfl, x, ws, rfl, hx, y, ws', rfl, hy, rfl⟩
        exact ⟨x, y, rfl, (matches_simplify a x).mp hx, (matches_simplify b y).mp hy⟩
      · rintro ⟨x, y, rfl, hx, hy⟩
        exact ⟨_, rfl, x, _, rfl, (matches_simplify a x).mpr hx, y, _, rfl,
          (matches_simplify b y).mpr hy, rfl⟩
  | PTuple3 a b c =>
      simp only [simplify, Pattern.Matches, Can.Pattern.Matches, RowMatches]
      constructor
      · rintro ⟨vs, rfl, x, ws, rfl, hx, y, ws', rfl, hy, z, ws'', rfl, hz, rfl⟩
        exact ⟨x, y, z, rfl, (matches_simplify a x).mp hx, (matches_simplify b y).mp hy,
          (matches_simplify c z).mp hz⟩
      · rintro ⟨x, y, z, rfl, hx, hy, hz⟩
        exact ⟨_, rfl, x, _, rfl, (matches_simplify a x).mpr hx, y, _, rfl,
          (matches_simplify b y).mpr hy, z, _, rfl, (matches_simplify c z).mpr hz, rfl⟩
  | PList entries =>
      rw [simplify, Can.Pattern.Matches]
      exact matches_simplifyEntries entries v
  | PCons hd tl =>
      simp only [simplify, Pattern.Matches, Can.Pattern.Matches, RowMatches]
      constructor
      · rintro ⟨vs, rfl, x, ws, rfl, hx, xs, ws', rfl, hxs, rfl⟩
        exact ⟨x, xs, rfl, (matches_simplify hd x).mp hx, (matches_simplify tl xs).mp hxs⟩
      · rintro ⟨x, xs, rfl, hx, hxs⟩
        exact ⟨_, rfl, x, _, rfl, (matches_simplify hd x).mpr hx, xs, _, rfl,
          (matches_simplify tl xs).mpr hxs, rfl⟩
  | PBool union bool => simp [simplify, Pattern.Matches, Can.Pattern.Matches, RowMatches]
  | PChr text => simp only [simplify, Pattern.Matches, Can.Pattern.Matches, Literal.value]
  | PStr text multiline =>
      simp only [simplify, Pattern.Matches, Can.Pattern.Matches, Literal.value]
  | PInt n => simp only [simplify, Pattern.Matches, Can.Pattern.Matches, Literal.value]
  | PCtor home type_ union name index args =>
      simp only [simplify, Pattern.Matches, Can.Pattern.Matches]
      constructor
      · rintro ⟨vs, rfl, h⟩
        exact ⟨vs, rfl, (matches_simplifyArgs args vs).mp h⟩
      · rintro ⟨vs, rfl, h⟩
        exact ⟨vs, rfl, (matches_simplifyArgs args vs).mpr h⟩

/-- Simplified arguments match what the arguments match. -/
theorem matches_simplifyArgs (ps : List Can.Pattern) (vs : List Value) :
    RowMatches Literal.value (simplifyArgs ps) vs ↔ Can.Pattern.ArgsMatch ps vs := by
  cases ps with
  | nil => rw [simplifyArgs, RowMatches, Can.Pattern.ArgsMatch]
  | cons p ps =>
      rw [simplifyArgs, RowMatches, Can.Pattern.ArgsMatch]
      constructor
      · rintro ⟨w, ws, rfl, hw, hws⟩
        exact ⟨w, ws, rfl, (matches_simplify p w).mp hw, (matches_simplifyArgs ps ws).mp hws⟩
      · rintro ⟨w, ws, rfl, hw, hws⟩
        exact ⟨w, ws, rfl, (matches_simplify p w).mpr hw, (matches_simplifyArgs ps ws).mpr hws⟩

/-- A simplified list matches what the list pattern matches. -/
theorem matches_simplifyEntries (ps : List Can.Pattern) (v : Value) :
    (simplifyEntries ps).Matches Literal.value v ↔ Can.Pattern.ListMatches ps v := by
  cases ps with
  | nil => simp [simplifyEntries, nil, Pattern.Matches, Can.Pattern.ListMatches, RowMatches]
  | cons p ps =>
      simp only [simplifyEntries, Pattern.Matches, Can.Pattern.ListMatches, RowMatches]
      constructor
      · rintro ⟨vs, rfl, x, ws, rfl, hx, xs, ws', rfl, hxs, rfl⟩
        exact ⟨x, xs, rfl, (matches_simplify p x).mp hx, (matches_simplifyEntries ps xs).mp hxs⟩
      · rintro ⟨x, xs, rfl, hx, hxs⟩
        exact ⟨_, rfl, x, _, rfl, (matches_simplify p x).mpr hx, xs, _, rfl,
          (matches_simplifyEntries ps xs).mpr hxs, rfl⟩

end

/-! ## Types -/

/-- The union whose constructors a type has. -/
def unionOf (Γ : Universe) (t : Γ.Ty) : Option Can.Union :=
  match Γ.shape t with
  | .unit => some unit
  | .pair _ _ => some pair
  | .triple _ _ _ => some triple
  | .list _ => some list
  | .bool union => some union
  | .custom _ union _ => some union
  | _ => none

/-- A literal is one of the values of a shape. -/
def Literal.Fits {Ty : Type} : Literal → Shape Ty → Prop
  | .Chr _, .chr => True
  | .Str _, .str => True
  | .Int _, .int => True
  | _, _ => False

section
variable (Γ : Universe) (P : Literal → Prop)

mutual

/-- A simplified pattern is one of a type, and its literals are all in `P`. -/
def Pattern.Typed : Pattern → Γ.Ty → Prop
  | .Anything, _ => True
  | .Literal literal, t => literal.Fits (Γ.shape t) ∧ P literal
  | .Ctor union name args, t =>
      unionOf Γ t = some union ∧ ∃ tys, (name, tys) ∈ altsOf Γ.shape t ∧ RowTyped args tys

/-- The patterns of a row are of the given types. -/
def RowTyped : List Pattern → List Γ.Ty → Prop
  | [], ts => ts = []
  | p :: ps, ts => ∃ t ts', ts = t :: ts' ∧ p.Typed t ∧ RowTyped ps ts'

end

/-- Every row of a matrix has the given types. -/
def MatrixTyped (matrix : List Row) (ts : List Γ.Ty) : Prop :=
  ∀ row ∈ matrix, RowTyped Γ P row ts

end

section
variable {Γ : Universe} {P : Literal → Prop}

/-- A row is typed column by column. -/
theorem rowTyped_cons {p : Pattern} {ps : Row} {t : Γ.Ty} {ts : List Γ.Ty} :
    RowTyped Γ P (p :: ps) (t :: ts) ↔ p.Typed Γ P t ∧ RowTyped Γ P ps ts := by
  rw [RowTyped]
  constructor
  · rintro ⟨t', ts', heq, hp, hps⟩
    obtain ⟨rfl, rfl⟩ := List.cons.inj heq
    exact ⟨hp, hps⟩
  · rintro ⟨hp, hps⟩
    exact ⟨t, ts, rfl, hp, hps⟩

/-- A typed row with a first type has a first pattern. -/
theorem rowTyped_of_cons {row : Row} {t : Γ.Ty} {ts : List Γ.Ty}
    (h : RowTyped Γ P row (t :: ts)) : ∃ p ps, row = p :: ps ∧ p.Typed Γ P t
      ∧ RowTyped Γ P ps ts := by
  match row, h with
  | [], h =>
      rw [RowTyped] at h
      cases h
  | p :: ps, h => exact ⟨p, ps, rfl, rowTyped_cons.mp h⟩

theorem rowTyped_length {row : Row} {ts : List Γ.Ty} (h : RowTyped Γ P row ts) :
    row.length = ts.length := by
  induction row generalizing ts with
  | nil =>
      rw [RowTyped] at h
      rw [h]
      rfl
  | cons p ps ih =>
      rw [RowTyped] at h
      obtain ⟨t, ts', rfl, -, hps⟩ := h
      rw [List.length_cons, List.length_cons, ih hps]

/-- Typed rows after each other are typed. -/
theorem rowTyped_append {a b : Row} {ts us : List Γ.Ty} (ha : RowTyped Γ P a ts)
    (hb : RowTyped Γ P b us) : RowTyped Γ P (a ++ b) (ts ++ us) := by
  induction a generalizing ts with
  | nil =>
      rw [RowTyped] at ha
      rw [ha]
      exact hb
  | cons p a ih =>
      rw [RowTyped] at ha
      obtain ⟨t, ts', rfl, hp, hps⟩ := ha
      exact rowTyped_cons.mpr ⟨hp, ih hps⟩

/-- Wildcards have any types. -/
theorem rowTyped_replicate (ts : List Γ.Ty) :
    RowTyped Γ P (List.replicate ts.length .Anything) ts := by
  induction ts with
  | nil => rw [List.length_nil, List.replicate_zero, RowTyped]
  | cons t ts ih =>
      rw [List.length_cons, List.replicate_succ, rowTyped_cons, Pattern.Typed]
      exact ⟨trivial, ih⟩

/-- What a type with constructors says of its union. -/
structure UnionFacts (Γ : Universe) (t : Γ.Ty) (union : Can.Union) : Prop where
  numAlts : union.numAlts = union.alts.length
  nodup : (union.alts.map Can.Ctor.name).Nodup
  typed : ∀ c ∈ union.alts, ∃ tys, (c.name, tys) ∈ altsOf Γ.shape t ∧ c.numArgs = tys.length
  named : ∀ name tys, (name, tys) ∈ altsOf Γ.shape t →
    ∃ c ∈ union.alts, c.name = name ∧ c.numArgs = tys.length
  values : ∀ v, HasType Γ.shape v t → ∃ name tys vs, v = .ctor name vs
    ∧ (name, tys) ∈ altsOf Γ.shape t ∧ HaveTypes Γ.shape vs tys

/-- A value of a type with constructors is built with one of them. -/
private theorem values_of_shape {t : Γ.Ty}
    (h : ∀ s ∈ [Shape.int, .chr, .str, .other], Γ.shape t ≠ s) (v : Value)
    (hv : HasType Γ.shape v t) : ∃ name tys vs, v = .ctor name vs
      ∧ (name, tys) ∈ altsOf Γ.shape t ∧ HaveTypes Γ.shape vs tys := by
  cases v with
  | int n =>
      rw [HasType] at hv
      exact absurd hv (h _ (by simp))
  | chr key =>
      rw [HasType] at hv
      exact absurd hv (h _ (by simp))
  | str key =>
      rw [HasType] at hv
      exact absurd hv (h _ (by simp))
  | ctor name vs =>
      rw [HasType] at hv
      obtain ⟨tys, hmem, hvs⟩ := hv
      exact ⟨name, tys, vs, rfl, hmem, hvs⟩
  | other id =>
      rw [HasType] at hv
      exact absurd hv (h _ (by simp))

/-- A declared custom type. -/
private theorem unionFacts_custom {t : Γ.Ty} {home : Can.ModuleName} {union : Can.Union}
    {args : List (List Γ.Ty)} (hs : Γ.shape t = .custom home union args) :
    UnionFacts Γ t union := by
  obtain ⟨h1, -, h3, h4, h5⟩ := Γ.custom t home union args hs
  have halts : altsOf Γ.shape t = (union.alts.map Can.Ctor.name).zip args := by
    rw [altsOf, hs]
  refine ⟨h1, h3, ?_, ?_, values_of_shape (by rw [hs]; simp)⟩
  · intro c hc
    obtain ⟨i, hi⟩ := List.mem_iff_getElem?.mp hc
    have hlt : i < args.length := by
      rw [h4]
      exact (List.getElem?_eq_some_iff.mp hi).1
    have hargs : args[i]? = some args[i] := List.getElem?_eq_getElem hlt
    refine ⟨args[i], ?_, (h5 i c _ hi hargs).1⟩
    rw [halts, List.mem_iff_getElem?]
    refine ⟨i, ?_⟩
    rw [List.getElem?_zip_eq_some]
    exact ⟨by rw [List.getElem?_map, hi]; rfl, hargs⟩
  · intro name tys hmem
    rw [halts, List.mem_iff_getElem?] at hmem
    obtain ⟨i, hi⟩ := hmem
    obtain ⟨hname, hargs⟩ := List.getElem?_zip_eq_some.mp hi
    rw [List.getElem?_map, Option.map_eq_some_iff] at hname
    obtain ⟨c, hc, hcname⟩ := hname
    exact ⟨c, List.mem_iff_getElem?.mpr ⟨i, hc⟩, hcname, (h5 i c tys hc hargs).1⟩

/-- The union of a type and the constructors of its values go together. -/
theorem unionFacts {t : Γ.Ty} {union : Can.Union} (hu : unionOf Γ t = some union) :
    UnionFacts Γ t union := by
  rw [unionOf] at hu
  -- declared unions by `unionFacts_custom`; the others are the lists that the checker writes down
  cases hs : Γ.shape t with
  | custom home union' args =>
      rw [hs] at hu
      obtain rfl := Option.some.inj hu
      exact unionFacts_custom hs
  | bool union' =>
      rw [hs] at hu
      obtain rfl := Option.some.inj hu
      obtain ⟨h1, a, b, h2, h3, h4, h5, h6⟩ := Γ.bool t _ hs
      have halts : altsOf Γ.shape t = [(boolName true, []), (boolName false, [])] := by
        rw [altsOf, hs]
      refine ⟨by rw [h1, h2]; rfl, ?_, ?_, ?_, values_of_shape (by rw [hs]; simp)⟩
      · rw [h2, List.map_cons, List.map_cons, h3, h5]
        decide
      · rw [h2, halts]
        simp [h3, h4, h5, h6]
      · rw [h2, halts]
        intro name tys hmem
        rcases List.mem_pair.mp hmem with heq | heq
        · obtain ⟨rfl, rfl⟩ := Prod.mk.inj heq
          exact ⟨a, List.mem_cons_self, h3, h4⟩
        · obtain ⟨rfl, rfl⟩ := Prod.mk.inj heq
          exact ⟨b, List.mem_cons_of_mem a List.mem_cons_self, h5, h6⟩
  | unit =>
      rw [hs] at hu
      obtain rfl := Option.some.inj hu
      refine ⟨rfl, by decide, ?_, ?_, values_of_shape (by rw [hs]; simp)⟩ <;>
        rw [altsOf, hs] <;> simp [unit]
  | pair a b =>
      rw [hs] at hu
      obtain rfl := Option.some.inj hu
      refine ⟨rfl, by decide, ?_, ?_, values_of_shape (by rw [hs]; simp)⟩ <;>
        rw [altsOf, hs] <;> simp [pair]
  | triple a b c =>
      rw [hs] at hu
      obtain rfl := Option.some.inj hu
      refine ⟨rfl, by decide, ?_, ?_, values_of_shape (by rw [hs]; simp)⟩ <;>
        rw [altsOf, hs] <;> simp [triple]
  | list a =>
      rw [hs] at hu
      obtain rfl := Option.some.inj hu
      refine ⟨rfl, by decide, ?_, ?_, values_of_shape (by rw [hs]; simp)⟩
      · rw [altsOf, hs]
        simp [list]
      · rw [altsOf, hs]
        intro name tys hmem
        rcases List.mem_pair.mp hmem with heq | heq
        · obtain ⟨rfl, rfl⟩ := Prod.mk.inj heq
          exact ⟨_, List.mem_cons_self, rfl, rfl⟩
        · obtain ⟨rfl, rfl⟩ := Prod.mk.inj heq
          exact ⟨_, List.mem_cons_of_mem _ List.mem_cons_self, rfl, rfl⟩
  | int => rw [hs] at hu; cases hu
  | chr => rw [hs] at hu; cases hu
  | str => rw [hs] at hu; cases hu
  | other => rw [hs] at hu; cases hu

end

/-! ## Patterns of a type -/

mutual

/-- The literals of a pattern. -/
def Pattern.literals : Pattern → List Literal
  | .Anything => []
  | .Literal literal => [literal]
  | .Ctor _ _ args => rowLiterals args

/-- The literals of a row. -/
def rowLiterals : List Pattern → List Literal
  | [] => []
  | p :: ps => p.literals ++ rowLiterals ps

end

section
variable {Γ : Universe} {P : Literal → Prop}

private theorem unionOf_custom {t : Γ.Ty} {home : Can.ModuleName} {union : Can.Union}
    {args : List (List Γ.Ty)} (hs : Γ.shape t = .custom home union args) :
    unionOf Γ t = some union := by
  rw [unionOf, hs]

mutual

/-- Simplifying a pattern keeps its type. -/
theorem typed_simplify {p : Can.Pattern} {t : Γ.Ty} (h : p.WellTyped Γ t)
    (hP : ∀ l ∈ (simplify p).literals, P l) : (simplify p).Typed Γ P t := by
  cases p with
  | PAnything => rw [simplify, Pattern.Typed]; trivial
  | PVar name => rw [simplify, Pattern.Typed]; trivial
  | PRecord fields => rw [simplify, Pattern.Typed]; trivial
  | PAlias q name =>
      rw [simplify] at hP ⊢
      rw [Can.Pattern.WellTyped] at h
      exact typed_simplify h hP
  | PUnit =>
      rw [Can.Pattern.WellTyped] at h
      simp [simplify, Pattern.Typed, unionOf, altsOf, h, RowTyped]
  | PTuple a b =>
      rw [Can.Pattern.WellTyped] at h
      -- tuples, units and lists are constructors of unions that the checker makes up
      obtain ⟨ta, tb, hs, ha, hb⟩ := h
      simp only [simplify, Pattern.literals, rowLiterals, List.append_nil, List.mem_append] at hP
      rw [simplify, Pattern.Typed, unionOf, altsOf, hs]
      refine ⟨rfl, [ta, tb], List.mem_singleton.mpr rfl, ?_⟩
      rw [rowTyped_cons, rowTyped_cons, RowTyped]
      exact ⟨typed_simplify ha fun l hl => hP l (.inl hl),
        typed_simplify hb fun l hl => hP l (.inr hl), rfl⟩
  | PTuple3 a b c =>
      rw [Can.Pattern.WellTyped] at h
      obtain ⟨ta, tb, tc, hs, ha, hb, hc⟩ := h
      simp only [simplify, Pattern.literals, rowLiterals, List.append_nil, List.mem_append] at hP
      rw [simplify, Pattern.Typed, unionOf, altsOf, hs]
      refine ⟨rfl, [ta, tb, tc], List.mem_singleton.mpr rfl, ?_⟩
      rw [rowTyped_cons, rowTyped_cons, rowTyped_cons, RowTyped]
      exact ⟨typed_simplify ha fun l hl => hP l (.inl hl),
        typed_simplify hb fun l hl => hP l (.inr (.inl hl)),
        typed_simplify hc fun l hl => hP l (.inr (.inr hl)), rfl⟩
  | PList entries =>
      rw [Can.Pattern.WellTyped] at h
      obtain ⟨a, hs, hentries⟩ := h
      rw [simplify] at hP ⊢
      exact typed_simplifyEntries hs hentries hP
  | PCons hd tl =>
      rw [Can.Pattern.WellTyped] at h
      obtain ⟨a, hs, hhd, htl⟩ := h
      simp only [simplify, Pattern.literals, rowLiterals, List.append_nil, List.mem_append] at hP
      rw [simplify, Pattern.Typed, unionOf, altsOf, hs]
      refine ⟨rfl, [a, t], List.mem_pair.mpr (.inr rfl), ?_⟩
      rw [rowTyped_cons, rowTyped_cons, RowTyped]
      exact ⟨typed_simplify hhd fun l hl => hP l (.inl hl),
        typed_simplify htl fun l hl => hP l (.inr hl), rfl⟩
  | PBool union bool =>
      rw [Can.Pattern.WellTyped] at h
      cases bool <;> simp [simplify, Pattern.Typed, unionOf, altsOf, h, RowTyped]
  | PChr text =>
      rw [Can.Pattern.WellTyped] at h
      rw [simplify, Pattern.Typed, h]
      exact ⟨trivial, hP _ (by simp [simplify, Pattern.literals])⟩
  | PStr text multiline =>
      rw [Can.Pattern.WellTyped] at h
      rw [simplify, Pattern.Typed, h]
      exact ⟨trivial, hP _ (by simp [simplify, Pattern.literals])⟩
  | PInt n =>
      rw [Can.Pattern.WellTyped] at h
      rw [simplify, Pattern.Typed, h]
      exact ⟨trivial, hP _ (by simp [simplify, Pattern.literals])⟩
  | PCtor home type_ union name index ps =>
      rw [Can.Pattern.WellTyped] at h
      obtain ⟨args, c, tys, hs, hc, rfl, htys, hps⟩ := h
      rw [simplify, Pattern.literals] at hP
      rw [simplify, Pattern.Typed]
      exact ⟨unionOf_custom hs, tys, alts_of_index hs hc htys, typed_simplifyArgs hps hP⟩

/-- Simplified arguments keep their types. -/
theorem typed_simplifyArgs {ps : List Can.Pattern} {ts : List Γ.Ty}
    (h : Can.Pattern.ArgsTyped Γ ps ts) (hP : ∀ l ∈ rowLiterals (simplifyArgs ps), P l) :
    RowTyped Γ P (simplifyArgs ps) ts := by
  cases ps with
  | nil =>
      rw [Can.Pattern.ArgsTyped] at h
      rw [simplifyArgs, RowTyped]
      exact h
  | cons p ps =>
      rw [Can.Pattern.ArgsTyped] at h
      obtain ⟨t, ts', rfl, hp, hps⟩ := h
      simp only [simplifyArgs, rowLiterals, List.mem_append] at hP
      rw [simplifyArgs, rowTyped_cons]
      exact ⟨typed_simplify hp fun l hl => hP l (.inl hl),
        typed_simplifyArgs hps fun l hl => hP l (.inr hl)⟩

/-- A simplified list keeps its type. -/
theorem typed_simplifyEntries {ps : List Can.Pattern} {t a : Γ.Ty} (hs : Γ.shape t = .list a)
    (h : Can.Pattern.EntriesTyped Γ ps a) (hP : ∀ l ∈ (simplifyEntries ps).literals, P l) :
    (simplifyEntries ps).Typed Γ P t := by
  cases ps with
  | nil =>
      rw [simplifyEntries, nil, Pattern.Typed, unionOf, altsOf, hs]
      exact ⟨rfl, [], List.mem_cons_self, by rw [RowTyped]⟩
  | cons p ps =>
      rw [Can.Pattern.EntriesTyped] at h
      simp only [simplifyEntries, Pattern.literals, rowLiterals, List.append_nil,
        List.mem_append] at hP
      rw [simplifyEntries, Pattern.Typed, unionOf, altsOf, hs]
      refine ⟨rfl, [a, t], List.mem_pair.mpr (.inr rfl), ?_⟩
      rw [rowTyped_cons, rowTyped_cons, RowTyped]
      exact ⟨typed_simplify h.1 fun l hl => hP l (.inl hl),
        typed_simplifyEntries hs h.2 fun l hl => hP l (.inr hl), rfl⟩

end

/-! ## Values of a row -/

/-- A reading that gives a literal a value of its kind. -/
structure Kinded (den : Reading) : Prop where
  chr : ∀ text, ∃ key, den (.Chr text) = .chr key
  str : ∀ text, ∃ key, den (.Str text) = .str key
  int : ∀ n, ∃ m, den (.Int n) = .int m

/-- The values of literals keep their kinds apart. -/
theorem kinded_value : Kinded Literal.value :=
  ⟨fun _ => ⟨_, rfl⟩, fun _ => ⟨_, rfl⟩, fun n => ⟨n, rfl⟩⟩

variable {den : Reading}

/-- No literal denotes a constructor. -/
theorem Kinded.ne_ctor (hden : Kinded den) (l : Literal) (name : String) (vs : List Value) :
    den l ≠ .ctor name vs := by
  intro h
  cases l with
  | Chr text =>
      obtain ⟨key, hkey⟩ := hden.chr text
      cases hkey.symm.trans h
  | Str text =>
      obtain ⟨key, hkey⟩ := hden.str text
      cases hkey.symm.trans h
  | Int n =>
      obtain ⟨m, hm⟩ := hden.int n
      cases hm.symm.trans h

/-- A literal of a type denotes one of its values. -/
theorem Kinded.hasType (hden : Kinded den) {l : Literal} {t : Γ.Ty}
    (h : l.Fits (Γ.shape t)) : HasType Γ.shape (den l) t := by
  cases l with
  | Chr text =>
      obtain ⟨key, hkey⟩ := hden.chr text
      rw [hkey, HasType]
      cases hs : Γ.shape t <;> rw [hs] at h <;> first | rfl | exact h.elim
  | Str text =>
      obtain ⟨key, hkey⟩ := hden.str text
      rw [hkey, HasType]
      cases hs : Γ.shape t <;> rw [hs] at h <;> first | rfl | exact h.elim
  | Int n =>
      obtain ⟨m, hm⟩ := hden.int n
      rw [hm, HasType]
      cases hs : Γ.shape t <;> rw [hs] at h <;> first | rfl | exact h.elim

/-- A type with literals has no constructors. -/
theorem unionOf_of_fits {l : Literal} {t : Γ.Ty} (h : l.Fits (Γ.shape t)) :
    unionOf Γ t = none := by
  rw [unionOf]
  cases hs : Γ.shape t <;> rw [hs] at h <;> cases l <;> first | rfl | exact h.elim

/-- A typing of values under which every type has one.  It is that of the type's own values where
    they are literals, and of what a constructor builds. -/
structure Populated (Γ : Universe) (Has : Value → Γ.Ty → Prop) : Prop where
  inhabited : ∀ t, ∃ v, Has v t
  literal : ∀ {l : Literal} {v t}, l.Fits (Γ.shape t) → HasType Γ.shape v t → Has v t
  ctor : ∀ {name vs t tys}, (name, tys) ∈ altsOf Γ.shape t → List.Forall₂ Has vs tys →
    Has (.ctor name vs) t

/-- The types themselves, when each has a value. -/
theorem populated_types [Γ.AllInhabited] : Populated Γ (HasType Γ.shape) where
  inhabited := Universe.AllInhabited.inhabited
  literal := fun _ hv => hv
  ctor := by
    intro name vs t tys hname hvs
    rw [HasType]
    exact ⟨tys, hname, haveTypes_iff.mpr hvs⟩

variable {Has : Value → Γ.Ty → Prop}

/-- In a populated universe every list of types has values. -/
theorem Populated.types (hpop : Populated Γ Has) (ts : List Γ.Ty) :
    ∃ vs, List.Forall₂ Has vs ts := by
  induction ts with
  | nil => exact ⟨[], .nil⟩
  | cons t ts ih =>
      obtain ⟨v, hv⟩ := hpop.inhabited t
      obtain ⟨vs, hvs⟩ := ih
      exact ⟨v :: vs, .cons hv hvs⟩

/-- Values of two lists of types split where the types do. -/
theorem forall₂_split {us : List Value} {ts ts' : List Γ.Ty}
    (h : List.Forall₂ Has us (ts ++ ts')) : ∃ ws vs, us = ws ++ vs
      ∧ List.Forall₂ Has ws ts ∧ List.Forall₂ Has vs ts' :=
  ⟨_, _, (List.take_append_drop ts.length us).symm, List.forall₂_take_append us ts ts' h,
    List.forall₂_drop_append us ts ts' h⟩

mutual

/-- A pattern of a type matches one of its values. -/
theorem pattern_inhabited (hpop : Populated Γ Has) (hden : Kinded den) {p : Pattern} {t : Γ.Ty}
    (h : p.Typed Γ P t) : ∃ v, Has v t ∧ p.Matches den v := by
  cases p with
  | Anything =>
      obtain ⟨v, hv⟩ := hpop.inhabited t
      exact ⟨v, hv, by rw [Pattern.Matches]; trivial⟩
  | Literal literal =>
      rw [Pattern.Typed] at h
      exact ⟨den literal, hpop.literal h.1 (hden.hasType h.1), by rw [Pattern.Matches]⟩
  | Ctor union name args =>
      rw [Pattern.Typed] at h
      obtain ⟨-, tys, hmem, hargs⟩ := h
      obtain ⟨vs, hvs, hmatch⟩ := row_inhabited hpop hden hargs
      exact ⟨.ctor name vs, hpop.ctor hmem hvs, matches_ctor.mpr hmatch⟩

/-- A row of types matches values of them. -/
theorem row_inhabited (hpop : Populated Γ Has) (hden : Kinded den) {row : Row} {ts : List Γ.Ty}
    (h : RowTyped Γ P row ts) : ∃ vs, List.Forall₂ Has vs ts ∧ RowMatches den row vs := by
  cases row with
  | nil =>
      rw [RowTyped] at h
      exact ⟨[], h ▸ .nil, rowMatches_nil.mpr rfl⟩
  | cons p ps =>
      rw [RowTyped] at h
      obtain ⟨t, ts', rfl, hp, hps⟩ := h
      obtain ⟨v, hv, hvmatch⟩ := pattern_inhabited hpop hden hp
      obtain ⟨vs, hvs, hvsmatch⟩ := row_inhabited hpop hden hps
      exact ⟨v :: vs, .cons hv hvs, rowMatches_cons.mpr ⟨hvmatch, hvsmatch⟩⟩

end

end

/-! ## Parts of a value -/

mutual

/-- A value and everything inside it. -/
def parts : Value → List Value
  | .ctor name vs => .ctor name vs :: partsAll vs
  | .int n => [.int n]
  | .chr key => [.chr key]
  | .str key => [.str key]
  | .other id => [.other id]

/-- The parts of a list of values. -/
def partsAll : List Value → List Value
  | [] => []
  | v :: vs => parts v ++ partsAll vs

end

/-- No part of the values is that of a literal in `P`. -/
def Avoids (P : Literal → Prop) (den : Reading) (vs : List Value) : Prop :=
  ∀ w ∈ partsAll vs, ∀ l, P l → w ≠ den l

section
variable {P : Literal → Prop} {den : Reading}

theorem mem_parts_self (v : Value) : v ∈ parts v := by
  cases v with
  | ctor name vs =>
      rw [parts]
      exact List.mem_cons_self
  | int n => exact List.mem_singleton.mpr rfl
  | chr key => exact List.mem_singleton.mpr rfl
  | str key => exact List.mem_singleton.mpr rfl
  | other id => exact List.mem_singleton.mpr rfl

theorem partsAll_append (ws vs : List Value) :
    partsAll (ws ++ vs) = partsAll ws ++ partsAll vs := by
  induction ws with
  | nil => rw [List.nil_append, partsAll, List.nil_append]
  | cons w ws ih => rw [List.cons_append, partsAll, ih, partsAll, List.append_assoc]

theorem avoids_cons {v : Value} {vs : List Value} (h : Avoids P den (v :: vs)) :
    (∀ l, P l → v ≠ den l) ∧ Avoids P den vs := by
  rw [Avoids, partsAll] at h
  exact ⟨h v (List.mem_append_left _ (mem_parts_self v)),
    fun w hw => h w (List.mem_append_right _ hw)⟩

/-- The parts of a constructor avoid what it avoids. -/
theorem avoids_ctor {name : String} {ws vs : List Value}
    (h : Avoids P den (.ctor name ws :: vs)) : Avoids P den (ws ++ vs) := by
  rw [Avoids, partsAll, parts] at h
  rw [Avoids, partsAll_append]
  exact fun w hw => h w (List.mem_cons_of_mem _ hw)

end

end PatternMatches

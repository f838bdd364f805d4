import EcoCompiler.PatternMatchesSpec

/-! # Usefulness and exhaustiveness

    The two recursions of the checker, on a matrix of typed rows.

    * `isUseful_spec`: what a row adds to the rows before it;
    * `isExhaustive_spec`: what the rows of a matrix miss, and what an example stands
      for.

    Neither crashes.  Each follows the recursion of the definition: a step lemma says
    what a specialisation covers, and which values it is enough to look at. -/

namespace PatternMatches

variable {Γ : Universe} {P : Literal → Prop} {den : Reading} {Has : Value → Γ.Ty → Prop}

/-! ## Specialising a matrix -/

/-- Specializing succeeds when it does so on every row. -/
theorem specialize_exists {f : Row → Option (Option Row)} {matrix : List Row}
    (h : ∀ row ∈ matrix, ∃ r, f row = some r) : ∃ m, specialize f matrix = some m := by
  induction matrix with
  | nil => exact ⟨[], rfl⟩
  | cons row rows ih =>
      obtain ⟨r, hr⟩ := h row List.mem_cons_self
      obtain ⟨m, hm⟩ := ih fun row' hrow' => h row' (List.mem_cons_of_mem row hrow')
      exact ⟨r.toList ++ m, by rw [specialize, hr, hm]⟩

/-- The rows of the result are what the rows of the matrix become. -/
theorem mem_specialize {f : Row → Option (Option Row)} {matrix m : List Row}
    (h : specialize f matrix = some m) (row' : Row) :
    row' ∈ m ↔ ∃ row ∈ matrix, f row = some (some row') := by
  induction matrix generalizing m with
  | nil =>
      obtain rfl := Option.some.inj h
      simp
  | cons row rows ih =>
      obtain ⟨r, rs, hr, hrs, rfl⟩ := specialize_cons h
      rw [List.mem_append, ih hrs, Option.mem_toList, List.exists_mem_cons_iff, hr,
        Option.some_inj]

/-- What a specialised matrix covers, from what each specialised row does. -/
theorem covered_specialize {f : Row → Option (Option Row)} {matrix m : List Row}
    (h : specialize f matrix = some m) {vs us : List Value}
    (hrow : ∀ row ∈ matrix, (∃ row', f row = some (some row') ∧ RowMatches den row' us)
      ↔ RowMatches den row vs) : Covered den m us ↔ Covered den matrix vs := by
  constructor
  · rintro ⟨row', hmem, hmatch⟩
    obtain ⟨row, hrowmem, hf⟩ := (mem_specialize h row').mp hmem
    exact ⟨row, hrowmem, (hrow row hrowmem).mp ⟨row', hf, hmatch⟩⟩
  · rintro ⟨row, hmem, hmatch⟩
    obtain ⟨row', hf, hmatch'⟩ := (hrow row hmem).mpr hmatch
    exact ⟨row', (mem_specialize h row').mpr ⟨row, hmem, hf⟩, hmatch'⟩

/-! ### By a constructor -/

/-- A typed row is specialised by each constructor of the type of its first column. -/
theorem specializeRowByCtor_typed {t : Γ.Ty} {ts tys : List Γ.Ty} {union : Can.Union}
    {name : String} (hu : unionOf Γ t = some union) (hname : (name, tys) ∈ altsOf Γ.shape t)
    {row : Row} (hrow : RowTyped Γ P row (t :: ts)) :
    ∃ r, specializeRowByCtor name tys.length row = some r
      ∧ ∀ row', r = some row' → RowTyped Γ P row' (tys ++ ts) := by
  obtain ⟨p, ps, rfl, hp, hps⟩ := rowTyped_of_cons hrow
  cases p with
  | Anything =>
      refine ⟨_, rfl, ?_⟩
      rintro row' ⟨⟩
      exact rowTyped_append (rowTyped_replicate tys) hps
  | Literal literal =>
      rw [Pattern.Typed] at hp
      rw [unionOf_of_fits hp.1] at hu
      cases hu
  | Ctor union' name' args =>
      rw [Pattern.Typed] at hp
      obtain ⟨-, tys', hmem, hargs⟩ := hp
      by_cases heq : name' = name
      · subst heq
        obtain rfl := alts_unique hname hmem
        refine ⟨some (args ++ ps), by rw [specializeRowByCtor, if_pos rfl], ?_⟩
        rintro row' ⟨⟩
        exact rowTyped_append hargs hps
      · refine ⟨none, by rw [specializeRowByCtor, if_neg heq], ?_⟩
        rintro row' ⟨⟩

/-- A specialised row matches what the row matches of the constructor's values. -/
theorem specializeRowByCtor_matches {name : String} {ws vs : List Value}
    {row : Row} {r : Option Row} (h : specializeRowByCtor name ws.length row = some r)
    (htyped : ∀ union args ps, row = .Ctor union name args :: ps → args.length = ws.length) :
    (∃ row', some r = some (some row') ∧ RowMatches den row' (ws ++ vs))
      ↔ RowMatches den row (.ctor name ws :: vs) := by
  match row, h with
  | .Anything :: ps, h =>
      obtain rfl := Option.some.inj h
      rw [rowMatches_cons, Pattern.Matches]
      constructor
      · rintro ⟨row', ⟨⟩, hmatch⟩
        exact ⟨trivial, ((rowMatches_append (List.length_replicate ..)).mp hmatch).2⟩
      · rintro ⟨-, hps⟩
        exact ⟨_, rfl, (rowMatches_append (List.length_replicate ..)).mpr
          ⟨rowMatches_replicate ws, hps⟩⟩
  | .Ctor union name' args :: ps, h =>
      rw [specializeRowByCtor] at h
      rw [rowMatches_cons]
      by_cases heq : name' = name
      · subst heq
        rw [if_pos rfl] at h
        obtain rfl := Option.some.inj h
        have hlen := htyped union args ps rfl
        rw [matches_ctor]
        constructor
        · rintro ⟨row', ⟨⟩, hmatch⟩
          exact (rowMatches_append hlen).mp hmatch
        · intro hmatch
          exact ⟨_, rfl, (rowMatches_append hlen).mpr hmatch⟩
      · rw [if_neg heq] at h
        obtain rfl := Option.some.inj h
        constructor
        · rintro ⟨row', ⟨⟩, -⟩
        · rintro ⟨hmatch, -⟩
          rw [Pattern.Matches] at hmatch
          obtain ⟨vs', hv, -⟩ := hmatch
          exact absurd (Value.ctor.inj hv).1.symm heq

/-- Specializing a typed matrix to a constructor of its type succeeds. -/
theorem specializeCtor_exists {t : Γ.Ty} {ts tys : List Γ.Ty} {union : Can.Union}
    {name : String} (hu : unionOf Γ t = some union) (hname : (name, tys) ∈ altsOf Γ.shape t)
    {matrix : List Row} (hm : MatrixTyped Γ P matrix (t :: ts)) :
    ∃ m, specialize (specializeRowByCtor name tys.length) matrix = some m :=
  specialize_exists fun row hrow =>
    (specializeRowByCtor_typed hu hname (hm row hrow)).imp fun _ h => h.1

/-- Specialising a typed matrix by a constructor of its first column: the result is
    typed, and covers the constructor's arguments where the matrix covers its values. -/
theorem specializeCtor_spec {t : Γ.Ty} {ts tys : List Γ.Ty}
    {union : Can.Union} {name : String} {arity : Nat} (hu : unionOf Γ t = some union)
    (hname : (name, tys) ∈ altsOf Γ.shape t) (harity : arity = tys.length) {matrix : List Row}
    (hm : MatrixTyped Γ P matrix (t :: ts)) :
    ∃ m, specialize (specializeRowByCtor name arity) matrix = some m
      ∧ MatrixTyped Γ P m (tys ++ ts)
      ∧ ∀ ws vs, ws.length = arity →
        (Covered den m (ws ++ vs) ↔ Covered den matrix (.ctor name ws :: vs)) := by
  subst harity
  obtain ⟨m, hspec⟩ := specializeCtor_exists hu hname hm
  refine ⟨m, hspec, ?_, ?_⟩
  · intro row' hrow'
    obtain ⟨row, hrow, hf⟩ := (mem_specialize hspec row').mp hrow'
    obtain ⟨r, hr, htyped⟩ := specializeRowByCtor_typed hu hname (hm row hrow)
    exact htyped row' (Option.some.inj (hr.symm.trans hf))
  · intro ws vs hlen
    refine covered_specialize hspec fun row hrow => ?_
    obtain ⟨r, hr, -⟩ := specializeRowByCtor_typed hu hname (hm row hrow)
    rw [← hlen] at hr ⊢
    rw [hr]
    refine specializeRowByCtor_matches hr ?_
    rintro union' args ps rfl
    have hp := (rowTyped_cons.mp (hm _ hrow)).1
    rw [Pattern.Typed] at hp
    obtain ⟨-, tys', hmem, hargs⟩ := hp
    rw [rowTyped_length hargs, alts_unique hmem hname, hlen]

/-! ### By a literal -/

/-- Specialising a typed matrix by a literal of its first column.  Two literals with one
    value keep different rows. -/
theorem specializeLiteral_spec {t : Γ.Ty} {ts : List Γ.Ty} {literal : Literal}
    (hfits : literal.Fits (Γ.shape t)) {matrix : List Row}
    (hm : MatrixTyped Γ P matrix (t :: ts)) :
    ∃ m, specialize (specializeRowByLiteral literal) matrix = some m
      ∧ MatrixTyped Γ P m ts
      ∧ ∀ row', row' ∈ m ↔
        .Literal literal :: row' ∈ matrix ∨ .Anything :: row' ∈ matrix := by
  -- a typed row has no constructor where a literal fits, so the crash is out of reach
  have hrows : ∀ row ∈ matrix, ∃ r, specializeRowByLiteral literal row = some r := by
    intro row hrow
    obtain ⟨p, ps, rfl, hp, -⟩ := rowTyped_of_cons (hm row hrow)
    cases p with
    | Anything => exact ⟨_, rfl⟩
    | Literal literal' =>
        rw [specializeRowByLiteral]
        split
        · exact ⟨_, rfl⟩
        · exact ⟨_, rfl⟩
    | Ctor union name args =>
        rw [Pattern.Typed, unionOf_of_fits hfits] at hp
        cases hp.1
  obtain ⟨m, hspec⟩ := specialize_exists hrows
  have hmem : ∀ row', row' ∈ m ↔
      .Literal literal :: row' ∈ matrix ∨ .Anything :: row' ∈ matrix := by
    intro row'
    rw [mem_specialize hspec]
    constructor
    · rintro ⟨row, hrow, hf⟩
      rcases row with _ | ⟨_ | literal' | ⟨union, name, args⟩, ps⟩
      · cases hf
      · obtain rfl := Option.some.inj (Option.some.inj hf)
        exact .inr hrow
      · rw [specializeRowByLiteral] at hf
        split at hf
        · next heq =>
            obtain rfl := Option.some.inj (Option.some.inj hf)
            exact .inl (heq ▸ hrow)
        · cases Option.some.inj hf
      · cases hf
    · rintro (hrow | hrow)
      · exact ⟨_, hrow, by rw [specializeRowByLiteral, if_pos rfl]⟩
      · exact ⟨_, hrow, rfl⟩
  refine ⟨m, hspec, ?_, hmem⟩
  intro row' hrow'
  rcases (hmem row').mp hrow' with h | h
  · exact (rowTyped_cons.mp (hm _ h)).2
  · exact (rowTyped_cons.mp (hm _ h)).2

/-! ### By a wildcard -/

/-- The default rows are those that start with a wildcard. -/
theorem mem_defaultRows {matrix : List Row} {row : Row} :
    row ∈ defaultRows matrix ↔ .Anything :: row ∈ matrix := by
  rw [defaultRows, List.mem_filterMap]
  constructor
  · rintro ⟨row', hrow', hf⟩
    rcases row' with _ | ⟨_ | literal' | ⟨union, name, args⟩, ps⟩
    · cases hf
    · obtain rfl := Option.some.inj hf
      exact hrow'
    · cases hf
    · cases hf
  · intro h
    exact ⟨_, h, rfl⟩

/-- The default rows are typed without the first column. -/
theorem matrixTyped_defaultRows {t : Γ.Ty} {ts : List Γ.Ty} {matrix : List Row}
    (hm : MatrixTyped Γ P matrix (t :: ts)) : MatrixTyped Γ P (defaultRows matrix) ts := by
  intro row hrow
  exact (rowTyped_cons.mp (hm _ (mem_defaultRows.mp hrow))).2

/-- What a default row covers the matrix covers, whatever stands first. -/
theorem covered_of_defaultRows {matrix : List Row} {v : Value} {vs : List Value}
    (h : Covered den (defaultRows matrix) vs) : Covered den matrix (v :: vs) := by
  obtain ⟨row, hrow, hmatch⟩ := h
  refine ⟨_, mem_defaultRows.mp hrow, rowMatches_cons.mpr ⟨?_, hmatch⟩⟩
  rw [Pattern.Matches]
  trivial

/-- A value that only wildcards of the first column match. -/
def Fresh (den : Reading) (matrix : List Row) (v : Value) : Prop :=
  ∀ p ps, p :: ps ∈ matrix → p.Matches den v → p = .Anything

/-- For a first value that no pattern of the column names, only the default rows count. -/
theorem covered_fresh {matrix : List Row} {v : Value} {vs : List Value}
    (hv : Fresh den matrix v) :
    Covered den matrix (v :: vs) ↔ Covered den (defaultRows matrix) vs := by
  constructor
  · rintro ⟨row, hrow, hmatch⟩
    rw [RowMatches.eq_def] at hmatch
    match row, hrow, hmatch with
    | p :: ps, hrow, hmatch =>
        obtain ⟨w, ws, heq, hp, hps⟩ := hmatch
        obtain ⟨rfl, rfl⟩ := List.cons.inj heq
        obtain rfl := hv p ps hrow hp
        exact ⟨ps, mem_defaultRows.mpr hrow, hps⟩
  · exact covered_of_defaultRows

/-! ## The constructors of a column -/

theorem mem_keys_dictInsert {α : Type} {key k : String} {value : α}
    {dict : List (String × α)} :
    k ∈ (dictInsert key value dict).map Prod.fst ↔ k = key ∨ k ∈ dict.map Prod.fst := by
  induction dict with
  | nil => simp [dictInsert]
  | cons entry rest ih =>
      obtain ⟨k', v'⟩ := entry
      rw [dictInsert]
      split
      · simp
      · split
        · next heq =>
            subst heq
            simp
        · rw [List.map_cons, List.mem_cons, ih, List.map_cons, List.mem_cons, or_left_comm]

/-- The keys of a dictionary stay in order. -/
theorem sorted_dictInsert {α : Type} {key : String} {value : α} {dict : List (String × α)}
    (h : (dict.map Prod.fst).Pairwise (· < ·)) :
    ((dictInsert key value dict).map Prod.fst).Pairwise (· < ·) := by
  induction dict with
  | nil => exact List.pairwise_singleton _ _
  | cons entry rest ih =>
      obtain ⟨k', v'⟩ := entry
      obtain ⟨hhead, htail⟩ := List.pairwise_cons.mp h
      rw [dictInsert]
      split
      · next hlt =>
          refine List.pairwise_cons.mpr ⟨?_, h⟩
          intro k hk
          rcases List.mem_cons.mp hk with rfl | hk
          · exact hlt
          · exact hlt.trans (hhead k hk)
      · next hlt =>
          split
          · next heq =>
              subst heq
              exact List.pairwise_cons.mpr ⟨hhead, htail⟩
          · next hne =>
              refine List.pairwise_cons.mpr ⟨?_, ih htail⟩
              intro k hk
              rcases mem_keys_dictInsert.mp hk with rfl | hk
              · exact lt_of_le_of_ne (not_lt.mp hlt) (Ne.symm hne)
              · exact hhead k hk

theorem mem_dictInsert {α : Type} {key : String} {value : α} {dict : List (String × α)}
    {entry : String × α} (h : entry ∈ dictInsert key value dict) :
    entry = (key, value) ∨ entry ∈ dict := by
  induction dict with
  | nil => exact .inl (List.mem_singleton.mp h)
  | cons entry' rest ih =>
      obtain ⟨k', v'⟩ := entry'
      rw [dictInsert] at h
      split at h
      · exact List.mem_cons.mp h
      · split at h
        · rcases List.mem_cons.mp h with h | h
          · exact .inl h
          · exact .inr (List.mem_cons_of_mem _ h)
        · rcases List.mem_cons.mp h with h | h
          · exact .inr (h ▸ List.mem_cons_self)
          · exact (ih h).imp id (List.mem_cons_of_mem _)

/-- The constructors collected from the rows on top of those in `dict`. -/
private theorem collect_spec (rows : List Row) (dict : List (String × Can.Union))
    (hsorted : (dict.map Prod.fst).Pairwise (· < ·)) :
    ((rows.foldl collectCtorsHelp dict).map Prod.fst).Pairwise (· < ·)
      ∧ (∀ name ∈ dict.map Prod.fst, name ∈ (rows.foldl collectCtorsHelp dict).map Prod.fst)
      ∧ (∀ union name args ps, .Ctor union name args :: ps ∈ rows →
        name ∈ (rows.foldl collectCtorsHelp dict).map Prod.fst)
      ∧ ∀ name union, (name, union) ∈ rows.foldl collectCtorsHelp dict →
        (name, union) ∈ dict ∨ ∃ args ps, .Ctor union name args :: ps ∈ rows := by
  -- by the rows that are left; `dict` is what those before them gave
  induction rows generalizing dict with
  | nil =>
      refine ⟨hsorted, fun _ h => h, ?_, fun _ _ h => .inl h⟩
      intro union name args ps h
      exact absurd h List.not_mem_nil
  | cons row rows ih =>
      rw [List.foldl_cons]
      by_cases hstart : StartsWithCtor row
      · obtain ⟨union, name, args, ps, rfl⟩ := hstart
        have hhelp : collectCtorsHelp dict (.Ctor union name args :: ps)
            = dictInsert name union dict := rfl
        rw [hhelp]
        obtain ⟨h1, h2, h3, h4⟩ := ih (dictInsert name union dict) (sorted_dictInsert hsorted)
        refine ⟨h1, ?_, ?_, ?_⟩
        · intro name' hname'
          exact h2 name' (mem_keys_dictInsert.mpr (.inr hname'))
        · intro union' name' args' ps' hmem
          rcases List.mem_cons.mp hmem with heq | hmem
          · obtain ⟨hp, -⟩ := List.cons.inj heq
            obtain ⟨-, rfl, -⟩ := Pattern.Ctor.inj hp
            exact h2 _ (mem_keys_dictInsert.mpr (.inl rfl))
          · exact h3 union' name' args' ps' hmem
        · intro name' union' hmem
          -- an entry was there, or is that of this row, or comes from a later one
          rcases h4 name' union' hmem with hmem | ⟨args', ps', hmem⟩
          · rcases mem_dictInsert hmem with heq | hmem
            · obtain ⟨rfl, rfl⟩ := Prod.mk.inj heq
              exact .inr ⟨args, ps, List.mem_cons_self⟩
            · exact .inl hmem
          · exact .inr ⟨args', ps', List.mem_cons_of_mem _ hmem⟩
      · rw [collectCtorsHelp_of_not hstart]
        obtain ⟨h1, h2, h3, h4⟩ := ih dict hsorted
        refine ⟨h1, h2, ?_, ?_⟩
        · intro union' name' args' ps' hmem
          rcases List.mem_cons.mp hmem with heq | hmem
          · exact absurd ⟨union', name', args', ps', heq.symm⟩ hstart
          · exact h3 union' name' args' ps' hmem
        · intro name' union' hmem
          refine (h4 name' union' hmem).imp id ?_
          rintro ⟨args', ps', hmem⟩
          exact ⟨args', ps', List.mem_cons_of_mem _ hmem⟩

/-- The names of the constructors in the first column. -/
def columnNames (matrix : List Row) : List String := (collectCtors matrix).map Prod.fst

/-- Every constructor of a column is collected once. -/
theorem nodup_columnNames (matrix : List Row) : (columnNames matrix).Nodup :=
  (collect_spec matrix [] List.Pairwise.nil).1.imp fun h => ne_of_lt h

/-- A constructor at the start of a row is collected. -/
theorem mem_columnNames {matrix : List Row} {union : Can.Union} {name : String} {args ps : Row}
    (h : .Ctor union name args :: ps ∈ matrix) : name ∈ columnNames matrix :=
  (collect_spec matrix [] List.Pairwise.nil).2.2.1 union name args ps h

/-- What is collected stands at the start of some row. -/
theorem row_of_mem_collectCtors {matrix : List Row} {union : Can.Union} {name : String}
    (h : (name, union) ∈ collectCtors matrix) :
    ∃ args ps, .Ctor union name args :: ps ∈ matrix :=
  ((collect_spec matrix [] List.Pairwise.nil).2.2.2 name union h).resolve_left List.not_mem_nil

/-- The constructors of a typed column are those of the union of its type. -/
theorem collectCtors_typed {t : Γ.Ty} {ts : List Γ.Ty} {matrix : List Row}
    (hm : MatrixTyped Γ P matrix (t :: ts)) {name : String} {union : Can.Union}
    (h : (name, union) ∈ collectCtors matrix) :
    unionOf Γ t = some union ∧ name ∈ union.alts.map Can.Ctor.name := by
  obtain ⟨args, ps, hrow⟩ := row_of_mem_collectCtors h
  have hp := (rowTyped_cons.mp (hm _ hrow)).1
  rw [Pattern.Typed] at hp
  obtain ⟨hu, tys, hname, -⟩ := hp
  obtain ⟨c, hc, hcname, -⟩ := (unionFacts hu).named name tys hname
  exact ⟨hu, List.mem_map.mpr ⟨c, hc, hcname⟩⟩

/-- The names of a typed column are among those of the union. -/
theorem columnNames_subset {t : Γ.Ty} {ts : List Γ.Ty} {matrix : List Row}
    (hm : MatrixTyped Γ P matrix (t :: ts)) {union : Can.Union}
    (hu : unionOf Γ t = some union) : columnNames matrix ⊆ union.alts.map Can.Ctor.name := by
  intro name hname
  obtain ⟨⟨name', union'⟩, hmem, rfl⟩ := List.mem_map.mp hname
  obtain ⟨hu', hname'⟩ := collectCtors_typed hm hmem
  obtain rfl := Option.some.inj (hu.symm.trans hu')
  exact hname'

/-- A column with fewer names than its union leaves a constructor out. -/
theorem exists_missing {t : Γ.Ty} {union : Can.Union} (hu : unionOf Γ t = some union)
    {matrix : List Row} (hlt : (collectCtors matrix).length < union.numAlts) :
    ∃ c ∈ union.alts, c.name ∉ columnNames matrix := by
  by_contra hno
  have hsub : union.alts.map Can.Ctor.name ⊆ columnNames matrix := by
    intro name hname
    obtain ⟨c, hc, rfl⟩ := List.mem_map.mp hname
    by_contra hmiss
    exact hno ⟨c, hc, hmiss⟩
  have hf := unionFacts hu
  have hle := (hf.nodup.subperm hsub).length_le
  rw [columnNames, List.length_map, List.length_map, ← hf.numAlts] at hle
  exact absurd hlt (not_lt.mpr hle)

/-- A column never has more names than its union. -/
theorem columnNames_length_le {t : Γ.Ty} {ts : List Γ.Ty} {matrix : List Row}
    (hm : MatrixTyped Γ P matrix (t :: ts)) {union : Can.Union}
    (hu : unionOf Γ t = some union) : (collectCtors matrix).length ≤ union.numAlts := by
  have hle := ((nodup_columnNames matrix).subperm (columnNames_subset hm hu)).length_le
  rw [columnNames, List.length_map, List.length_map, ← (unionFacts hu).numAlts] at hle
  exact hle

/-! ### Fresh values -/

/-- Infinitely many literals are not all in a list. -/
private theorem exists_fresh_literal {L : List Value} {f : ℕ → Value}
    (hf : Function.Injective f) : ∃ n, f n ∉ L := by
  obtain ⟨v, ⟨n, rfl⟩, hv⟩ := (Set.infinite_range_of_injective hf).exists_notMem_finite
    (List.finite_toSet L)
  exact ⟨n, hv⟩

/-- A type of literals has a value that is none of finitely many. -/
private theorem exists_value_not_mem {t : Γ.Ty} {l : Literal} (h : l.Fits (Γ.shape t))
    (L : List Value) : ∃ v, HasType Γ.shape v t ∧ v ∉ L := by
  cases l with
  | Chr text =>
      obtain ⟨n, hn⟩ := exists_fresh_literal (L := L) (f := fun n => .chr n.repr)
        fun a b hab => Nat.repr_inj.mp (Value.chr.inj hab)
      refine ⟨_, ?_, hn⟩
      rw [HasType]
      cases hs : Γ.shape t <;> rw [hs] at h <;> first | rfl | exact h.elim
  | Str text =>
      obtain ⟨n, hn⟩ := exists_fresh_literal (L := L) (f := fun n => .str n.repr)
        fun a b hab => Nat.repr_inj.mp (Value.str.inj hab)
      refine ⟨_, ?_, hn⟩
      rw [HasType]
      cases hs : Γ.shape t <;> rw [hs] at h <;> first | rfl | exact h.elim
  | Int n =>
      obtain ⟨n, hn⟩ := exists_fresh_literal (L := L) (f := fun n => .int n)
        fun a b hab => Int.ofNat.inj (Value.int.inj hab)
      refine ⟨_, ?_, hn⟩
      rw [HasType]
      cases hs : Γ.shape t <;> rw [hs] at h <;> first | rfl | exact h.elim

/-- A column without constructors leaves a value of its type to the wildcards. -/
theorem exists_fresh_of_none (hpop : Populated Γ Has) {t : Γ.Ty} {ts : List Γ.Ty}
    {matrix : List Row} (hm : MatrixTyped Γ P matrix (t :: ts)) (hc : collectCtors matrix = []) :
    ∃ v, Has v t ∧ Fresh den matrix v := by
  have hnot : ∀ union name args ps, .Ctor union name args :: ps ∉ matrix := by
    intro union name args ps hmem
    have hname := mem_columnNames hmem
    rw [columnNames, hc] at hname
    cases hname
  by_cases hlit : ∃ l ps, Pattern.Literal l :: ps ∈ matrix
  · obtain ⟨l, ps, hmem⟩ := hlit
    have hp := (rowTyped_cons.mp (hm _ hmem)).1
    rw [Pattern.Typed] at hp
    obtain ⟨v, hv, hnotin⟩ := exists_value_not_mem hp.1 (matrix.flatMap fun row =>
      (rowLiterals row).map den)
    refine ⟨v, hpop.literal hp.1 hv, ?_⟩
    intro p ps' hrow hmatch
    cases p with
    | Anything => rfl
    | Literal l' =>
        rw [Pattern.Matches] at hmatch
        have hl : l' ∈ rowLiterals (.Literal l' :: ps') := by
          rw [rowLiterals, Pattern.literals]
          exact List.mem_cons_self
        refine absurd (List.mem_flatMap.mpr ⟨_, hrow, ?_⟩) hnotin
        exact List.mem_map.mpr ⟨l', hl, hmatch.symm⟩
    | Ctor union name args => exact absurd hrow (hnot union name args ps')
  · obtain ⟨v, hv⟩ := hpop.inhabited t
    refine ⟨v, hv, ?_⟩
    intro p ps' hrow hmatch
    cases p with
    | Anything => rfl
    | Literal l' => exact absurd ⟨l', ps', hrow⟩ hlit
    | Ctor union name args => exact absurd hrow (hnot union name args ps')

/-- A value of a constructor that the column leaves out is left to the wildcards. -/
theorem fresh_of_missing (hden : Kinded den) {matrix : List Row} {name : String}
    (hname : name ∉ columnNames matrix) (ws : List Value) :
    Fresh den matrix (.ctor name ws) := by
  intro p ps hrow hmatch
  cases p with
  | Anything => rfl
  | Literal l =>
      rw [Pattern.Matches] at hmatch
      exact absurd hmatch.symm (hden.ne_ctor l name ws)
  | Ctor union name' args =>
      rw [Pattern.Matches] at hmatch
      obtain ⟨vs, heq, -⟩ := hmatch
      obtain ⟨rfl, -⟩ := Value.ctor.inj heq
      exact absurd (mem_columnNames hrow) hname

/-- A column that leaves a constructor out leaves one of its values to the wildcards. -/
theorem exists_fresh_of_missing (hpop : Populated Γ Has) (hden : Kinded den) {t : Γ.Ty}
    {union : Can.Union} (hu : unionOf Γ t = some union) {matrix : List Row}
    (hlt : (collectCtors matrix).length < union.numAlts) :
    ∃ v, Has v t ∧ Fresh den matrix v := by
  obtain ⟨c, hc, hmiss⟩ := exists_missing hu hlt
  obtain ⟨tys, hname, -⟩ := (unionFacts hu).typed c hc
  obtain ⟨ws, hws⟩ := hpop.types tys
  exact ⟨.ctor c.name ws, hpop.ctor hname hws, fresh_of_missing hden hmiss ws⟩

/-! ## Redundancy -/

/-- The step of `isUseful` at a constructor. -/
theorem isUseful_ctor {matrix m : List Row} {union : Can.Union} {name : String} {args ps : Row}
    (hne : ¬matrix.isEmpty = true)
    (h : specialize (specializeRowByCtor name args.length) matrix = some m) :
    isUseful matrix (.Ctor union name args :: ps) = isUseful m (args ++ ps) := by
  rw [isUseful, if_neg hne]
  split
  · next heq => cases heq.symm.trans h
  · next heq => rw [Option.some.inj (heq.symm.trans h)]

/-- The step of `isUseful` at a literal. -/
theorem isUseful_literal {matrix m : List Row} {literal : Literal} {ps : Row}
    (hne : ¬matrix.isEmpty = true)
    (h : specialize (specializeRowByLiteral literal) matrix = some m) :
    isUseful matrix (.Literal literal :: ps) = isUseful m ps := by
  rw [isUseful, if_neg hne]
  split
  · next heq => cases heq.symm.trans h
  · next heq => rw [Option.some.inj (heq.symm.trans h)]

/-- Its step at a wildcard over a column that lacks a constructor. -/
theorem isUseful_missing {matrix : List Row} {ps : Row} (hne : ¬matrix.isEmpty = true)
    (h : isComplete matrix = .No) :
    isUseful matrix (.Anything :: ps) = isUseful (defaultRows matrix) ps := by
  rw [isUseful, if_neg hne]
  split
  · rfl
  · next heq => cases heq.symm.trans h

/-- Whether one alternative leaves a wildcard something to add. -/
def usefulAt (matrix : List Row) (ps : Row) (c : Can.Ctor) : Option Bool :=
  match specialize (specializeRowByCtor c.name c.numArgs) matrix with
  | none => none
  | some m => isUseful m (List.replicate c.numArgs .Anything ++ ps)

/-- Its step at a wildcard over a complete column. -/
theorem isUseful_complete {matrix : List Row} {ps : Row} {alts : List Can.Ctor}
    (hne : ¬matrix.isEmpty = true) (h : isComplete matrix = .Yes alts) :
    isUseful matrix (.Anything :: ps) = alts.anyM (usefulAt matrix ps) := by
  rw [isUseful, if_neg hne]
  split
  · next heq => cases heq.symm.trans h
  · next heq =>
      obtain rfl := Complete.Yes.inj (heq.symm.trans h)
      refine congrArg (fun f => List.anyM f _) (funext fun c => ?_)
      rw [usefulAt]
      split
      · next hs => rw [hs]
      · next hs => rw [hs]

/-- An `anyM` of answers answers whether one of them is `true`. -/
theorem anyM_spec {α : Type} {f : α → Option Bool} {xs : List α}
    (h : ∀ x ∈ xs, ∃ b, f x = some b) :
    ∃ b, xs.anyM f = some b ∧ (b = true ↔ ∃ x ∈ xs, f x = some true) := by
  induction xs with
  | nil => exact ⟨false, rfl, by simp⟩
  | cons x xs ih =>
      obtain ⟨b, hb⟩ := h x List.mem_cons_self
      obtain ⟨b', hb', hiff⟩ := ih fun y hy => h y (List.mem_cons_of_mem x hy)
      cases b with
      | true =>
          refine ⟨true, ?_, ?_⟩
          · rw [List.anyM, hb]
            rfl
          · exact ⟨fun _ => ⟨x, List.mem_cons_self, hb⟩, fun _ => rfl⟩
      | false =>
          refine ⟨b', ?_, ?_⟩
          · rw [List.anyM, hb]
            exact hb'
          · rw [hiff, List.exists_mem_cons_iff, hb]
            simp

/-- A wildcard matches the values of one constructor when its arguments do. -/
theorem rowMatches_anything {v : Value} {vs : List Value} {ps : Row} :
    RowMatches den (.Anything :: ps) (v :: vs) ↔ RowMatches den ps vs := by
  rw [rowMatches_cons, Pattern.Matches, true_and]

/-- Wildcards at the front match any values. -/
theorem rowMatches_replicate_append {n : Nat} {ws vs : List Value} {ps : Row}
    (h : ws.length = n) :
    RowMatches den (List.replicate n .Anything ++ ps) (ws ++ vs) ↔ RowMatches den ps vs := by
  subst h
  rw [rowMatches_append (List.length_replicate ..)]
  exact ⟨fun hboth => hboth.2, fun hps => ⟨rowMatches_replicate ws, hps⟩⟩

/-- What `isUseful` says of a row: it answers, and the row adds nothing when the answer
    is `false`; it adds something when the answer is `true` and no two literals have one
    value, of types that all have values. -/
def UsefulSpec (Γ : Universe) (Has : Value → Γ.Ty → Prop) (P : Literal → Prop) (den : Reading)
    (matrix : List Row) (vector : Row) (ts : List Γ.Ty) (b : Bool) : Prop :=
  (b = false → ∀ vs, HaveTypes Γ.shape vs ts → RowMatches den vector vs →
    Covered den matrix vs)
  ∧ (b = true → (∀ l l', P l → P l' → den l = den l' → l = l') →
    ∃ vs, List.Forall₂ Has vs ts ∧ RowMatches den vector vs ∧ ¬Covered den matrix vs)

/-- A row is useful after no row at all. -/
private theorem useful_empty (hpop : Populated Γ Has) (hden : Kinded den) {matrix : List Row}
    {vector : Row} {ts : List Γ.Ty} (hempty : matrix.isEmpty = true)
    (hv : RowTyped Γ P vector ts) : UsefulSpec Γ Has P den matrix vector ts true := by
  refine ⟨fun h => Bool.noConfusion h, fun _ _ => ?_⟩
  obtain ⟨vs, hvs, hmatch⟩ := row_inhabited hpop hden hv
  refine ⟨vs, hvs, hmatch, ?_⟩
  rintro ⟨row, hrow, -⟩
  rw [List.isEmpty_iff.mp hempty] at hrow
  exact absurd hrow List.not_mem_nil

/-- A row without columns is useless after another. -/
private theorem useful_noColumns {matrix : List Row} {ts : List Γ.Ty}
    (hne : ¬matrix.isEmpty = true) (hm : MatrixTyped Γ P matrix ts)
    (hv : RowTyped Γ P [] ts) : UsefulSpec Γ Has P den matrix [] ts false := by
  refine ⟨fun _ vs hvs _ => ?_, fun h => Bool.noConfusion h⟩
  rw [RowTyped] at hv
  subst hv
  have hvs0 := List.length_eq_zero_iff.mp (haveTypes_length hvs)
  subst hvs0
  match matrix, hne with
  | row :: rows, _ =>
      have hrow := List.length_eq_zero_iff.mp (rowTyped_length (hm row List.mem_cons_self))
      exact ⟨row, List.mem_cons_self, by rw [hrow, rowMatches_nil]⟩

/-- A constructor: its values, and those the specialised matrix is about. -/
private theorem useful_ctor (hpop : Populated Γ Has) {matrix m : List Row} {union : Can.Union}
    {name : String}
    {args ps : Row} {t : Γ.Ty} {ts tys : List Γ.Ty} {b : Bool}
    (hname : (name, tys) ∈ altsOf Γ.shape t) (hargs : RowTyped Γ P args tys)
    (hcov : ∀ ws vs, ws.length = args.length →
      (Covered den m (ws ++ vs) ↔ Covered den matrix (.ctor name ws :: vs)))
    (h : UsefulSpec Γ Has P den m (args ++ ps) (tys ++ ts) b) :
    UsefulSpec Γ Has P den matrix (.Ctor union name args :: ps) (t :: ts) b := by
  have hlen := rowTyped_length hargs
  refine ⟨fun hb vs hvs hmatch => ?_, fun hb hsep => ?_⟩
  · obtain ⟨w, ws', rfl, hw, hws'⟩ := haveTypes_of_cons hvs
    obtain ⟨hp, hps⟩ := rowMatches_cons.mp hmatch
    rw [Pattern.Matches] at hp
    obtain ⟨ws, rfl, hws⟩ := hp
    rw [HasType] at hw
    obtain ⟨tys', hmem, hwst⟩ := hw
    obtain rfl := alts_unique hname hmem
    have hwlen := rowMatches_length hws
    exact (hcov ws ws' hwlen.symm).mp
      (h.1 hb _ (haveTypes_append hwst hws') ((rowMatches_append hwlen).mpr ⟨hws, hps⟩))
  · obtain ⟨us, hus, hmatch, hnot⟩ := h.2 hb hsep
    obtain ⟨ws, vs, rfl, hws, hvs⟩ := forall₂_split hus
    have hwlen : args.length = ws.length := hlen.trans hws.length_eq.symm
    obtain ⟨hma, hmp⟩ := (rowMatches_append hwlen).mp hmatch
    refine ⟨.ctor name ws :: vs, .cons (hpop.ctor hname hws) hvs,
      rowMatches_cons.mpr ⟨matches_ctor.mpr hma, hmp⟩, ?_⟩
    rw [← hcov ws vs hwlen.symm]
    exact hnot

/-- A wildcard over a column that leaves something to wildcards. -/
private theorem useful_missing {matrix : List Row} {ps : Row} {t : Γ.Ty} {ts : List Γ.Ty}
    {b : Bool} (hfresh : ∃ v, Has v t ∧ Fresh den matrix v)
    (h : UsefulSpec Γ Has P den (defaultRows matrix) ps ts b) :
    UsefulSpec Γ Has P den matrix (.Anything :: ps) (t :: ts) b := by
  refine ⟨fun hb vs hvs hmatch => ?_, fun hb hsep => ?_⟩
  · obtain ⟨w, ws', rfl, hw, hws'⟩ := haveTypes_of_cons hvs
    exact covered_of_defaultRows (h.1 hb ws' hws' (rowMatches_anything.mp hmatch))
  · obtain ⟨v, hv, hfr⟩ := hfresh
    obtain ⟨vs, hvs, hmatch, hnot⟩ := h.2 hb hsep
    refine ⟨v :: vs, .cons hv hvs, rowMatches_anything.mpr hmatch, ?_⟩
    rw [covered_fresh hfr]
    exact hnot

/-- A wildcard over a column with every constructor: one of them has something to add. -/
private theorem useful_complete (hpop : Populated Γ Has) {matrix : List Row} {ps : Row} {t : Γ.Ty}
    {ts : List Γ.Ty} {union : Can.Union} {b : Bool} (hu : unionOf Γ t = some union)
    (halts : ∀ c ∈ union.alts, ∃ m tys b', (c.name, tys) ∈ altsOf Γ.shape t
      ∧ c.numArgs = tys.length ∧ (∀ ws vs, ws.length = c.numArgs →
        (Covered den m (ws ++ vs) ↔ Covered den matrix (.ctor c.name ws :: vs)))
      ∧ usefulAt matrix ps c = some b'
      ∧ UsefulSpec Γ Has P den m (List.replicate c.numArgs .Anything ++ ps) (tys ++ ts) b')
    (hb : b = true ↔ ∃ c ∈ union.alts, usefulAt matrix ps c = some true) :
    UsefulSpec Γ Has P den matrix (.Anything :: ps) (t :: ts) b := by
  refine ⟨fun hfalse vs hvs hmatch => ?_, fun htrue hsep => ?_⟩
  · obtain ⟨w, ws', rfl, hw, hws'⟩ := haveTypes_of_cons hvs
    obtain ⟨name, tys', ws, rfl, hname, hws⟩ := (unionFacts hu).values w hw
    obtain ⟨c, hc, rfl, -⟩ := (unionFacts hu).named name tys' hname
    obtain ⟨m, tys, b', hctys, harity, hcov, hat, hspec⟩ := halts c hc
    obtain rfl := alts_unique hname hctys
    have hwlen : ws.length = c.numArgs := (haveTypes_length hws).trans harity.symm
    have hb' : b' = false := by
      cases b' with
      | false => rfl
      | true => cases hfalse.symm.trans (hb.mpr ⟨c, hc, hat⟩)
    exact (hcov ws ws' hwlen).mp (hspec.1 hb' _ (haveTypes_append hws hws')
      ((rowMatches_replicate_append hwlen).mpr (rowMatches_anything.mp hmatch)))
  · obtain ⟨c, hc, hat⟩ := hb.mp htrue
    obtain ⟨m, tys, b', hctys, harity, hcov, hat', hspec⟩ := halts c hc
    obtain ⟨us, hus, hmatch, hnot⟩ := hspec.2 (Option.some.inj (hat'.symm.trans hat)) hsep
    obtain ⟨ws, vs, rfl, hws, hvs⟩ := forall₂_split hus
    have hwlen : ws.length = c.numArgs := hws.length_eq.trans harity.symm
    refine ⟨.ctor c.name ws :: vs, .cons (hpop.ctor hctys hws) hvs,
      rowMatches_anything.mpr ((rowMatches_replicate_append hwlen).mp hmatch), ?_⟩
    rw [← hcov ws vs hwlen]
    exact hnot

/-- A literal: the rows that hold it, and the wildcards. -/
private theorem useful_literal (hpop : Populated Γ Has) (hden : Kinded den)
    {matrix m : List Row} {literal : Literal} {ps : Row} {t : Γ.Ty} {ts : List Γ.Ty} {b : Bool}
    (hfits : literal.Fits (Γ.shape t))
    (hP : P literal) (hm : MatrixTyped Γ P matrix (t :: ts))
    (hmem : ∀ row', row' ∈ m ↔
      .Literal literal :: row' ∈ matrix ∨ .Anything :: row' ∈ matrix)
    (h : UsefulSpec Γ Has P den m ps ts b) :
    UsefulSpec Γ Has P den matrix (.Literal literal :: ps) (t :: ts) b := by
  refine ⟨fun hb vs hvs hmatch => ?_, fun hb hsep => ?_⟩
  · obtain ⟨w, ws', rfl, hw, hws'⟩ := haveTypes_of_cons hvs
    obtain ⟨hp, hps⟩ := rowMatches_cons.mp hmatch
    obtain ⟨row, hrow, hrm⟩ := h.1 hb ws' hws' hps
    rcases (hmem row).mp hrow with hrow | hrow
    · exact ⟨_, hrow, rowMatches_cons.mpr ⟨hp, hrm⟩⟩
    · exact ⟨_, hrow, rowMatches_anything.mpr hrm⟩
  · obtain ⟨vs, hvs, hmatch, hnot⟩ := h.2 hb hsep
    refine ⟨den literal :: vs, .cons (hpop.literal hfits (hden.hasType hfits)) hvs,
      rowMatches_cons.mpr ⟨by rw [Pattern.Matches], hmatch⟩, ?_⟩
    rintro ⟨row, hrow, hrm⟩
    obtain ⟨p, ps', rfl, hp, -⟩ := rowTyped_of_cons (hm row hrow)
    obtain ⟨hpm, hps'⟩ := rowMatches_cons.mp hrm
    refine hnot ⟨ps', (hmem ps').mpr ?_, hps'⟩
    cases p with
    | Anything => exact .inr hrow
    | Literal literal' =>
        rw [Pattern.Typed] at hp
        rw [Pattern.Matches] at hpm
        rw [hsep literal literal' hP hp.2 hpm]
        exact .inl hrow
    | Ctor union name args =>
        rw [Pattern.Typed, unionOf_of_fits hfits] at hp
        cases hp.1

theorem isComplete_cons {matrix : List Row} {name : String} {union : Can.Union}
    {others : List (String × Can.Union)} (hc : collectCtors matrix = (name, union) :: others) :
    isComplete matrix
      = if ((name, union) :: others).length = union.numAlts then .Yes union.alts else .No := by
  rw [isComplete, hc]

/-- A typed column is incomplete because it has no constructor, or misses one. -/
theorem exists_fresh_of_isComplete (hpop : Populated Γ Has) (hden : Kinded den) {t : Γ.Ty}
    {ts : List Γ.Ty} {matrix : List Row} (hm : MatrixTyped Γ P matrix (t :: ts))
    (h : isComplete matrix = .No) : ∃ v, Has v t ∧ Fresh den matrix v := by
  cases hc : collectCtors matrix with
  | nil => exact exists_fresh_of_none hpop hm hc
  | cons entry others =>
      obtain ⟨name, union⟩ := entry
      rw [isComplete_cons hc] at h
      have hu := (collectCtors_typed hm (hc ▸ List.mem_cons_self)).1
      have hle := columnNames_length_le hm hu
      rw [hc] at hle
      have hne : ((name, union) :: others).length ≠ union.numAlts := by
        intro heq
        rw [if_pos heq] at h
        cases h
      refine exists_fresh_of_missing hpop hden hu ?_
      rw [hc]
      exact lt_of_le_of_ne hle hne

/-- A complete column has the constructors of its type. -/
theorem isComplete_typed {t : Γ.Ty} {ts : List Γ.Ty} {matrix : List Row}
    (hm : MatrixTyped Γ P matrix (t :: ts)) {alts : List Can.Ctor}
    (h : isComplete matrix = .Yes alts) :
    ∃ union, unionOf Γ t = some union ∧ union.alts = alts := by
  cases hc : collectCtors matrix with
  | nil =>
      rw [isComplete, hc] at h
      cases h
  | cons entry others =>
      obtain ⟨name, union⟩ := entry
      refine ⟨union, (collectCtors_typed hm (hc ▸ List.mem_cons_self)).1, ?_⟩
      rw [isComplete_cons hc] at h
      by_cases heq : ((name, union) :: others).length = union.numAlts
      · rw [if_pos heq] at h
        exact Complete.Yes.inj h
      · rw [if_neg heq] at h
        cases h

/-- `isUseful` answers for every typed row, and says whether it adds a value. -/
theorem isUseful_spec (hpop : Populated Γ Has) (hden : Kinded den) (matrix : List Row)
    (vector : Row) (ts : List Γ.Ty) (hm : MatrixTyped Γ P matrix ts) (hv : RowTyped Γ P vector ts) :
    ∃ b, isUseful matrix vector = some b ∧ UsefulSpec Γ Has P den matrix vector ts b := by
  induction matrix, vector using isUseful.induct generalizing ts with
  | case1 matrix vector hempty =>
      exact ⟨true, by rw [isUseful.eq_def, if_pos hempty], useful_empty hpop hden hempty hv⟩
  | case2 matrix hne =>
      exact ⟨false, by rw [isUseful, if_neg hne], useful_noColumns hne hm hv⟩
  | case3 matrix hne union name args ps hs =>
      rw [RowTyped] at hv
      obtain ⟨t, ts', rfl, hp, hps⟩ := hv
      rw [Pattern.Typed] at hp
      obtain ⟨hu, tys, hname, hargs⟩ := hp
      obtain ⟨m, hm'⟩ := specializeCtor_exists hu hname hm
      rw [rowTyped_length hargs] at hs
      cases hs.symm.trans hm'
  | case4 matrix hne union name args ps m hs ih =>
      rw [RowTyped] at hv
      obtain ⟨t, ts', rfl, hp, hps⟩ := hv
      rw [Pattern.Typed] at hp
      obtain ⟨hu, tys, hname, hargs⟩ := hp
      obtain ⟨m', hm', htyped, hcov⟩ :=
        specializeCtor_spec hu hname (rowTyped_length hargs) hm
      obtain rfl := Option.some.inj (hs.symm.trans hm')
      obtain ⟨b, hb, hspec⟩ := ih _ htyped (rowTyped_append hargs hps)
      exact ⟨b, by rw [isUseful_ctor hne hs, hb], useful_ctor hpop hname hargs hcov hspec⟩
  | case5 matrix hne ps hc ih =>
      rw [RowTyped] at hv
      obtain ⟨t, ts', rfl, -, hps⟩ := hv
      obtain ⟨b, hb, hspec⟩ := ih _ (matrixTyped_defaultRows hm) hps
      exact ⟨b, by rw [isUseful_missing hne hc, hb],
        useful_missing (exists_fresh_of_isComplete hpop hden hm hc) hspec⟩
  | case6 matrix hne ps alts hc ih =>
      rw [RowTyped] at hv
      obtain ⟨t, ts', rfl, -, hps⟩ := hv
      obtain ⟨union, hu, rfl⟩ := isComplete_typed hm hc
      -- one recursive call for each alternative of the union
      have halts : ∀ c ∈ union.alts, ∃ m tys b', (c.name, tys) ∈ altsOf Γ.shape t
          ∧ c.numArgs = tys.length ∧ (∀ ws vs, ws.length = c.numArgs →
            (Covered den m (ws ++ vs) ↔ Covered den matrix (.ctor c.name ws :: vs)))
          ∧ usefulAt matrix ps c = some b'
          ∧ UsefulSpec Γ Has P den m (List.replicate c.numArgs .Anything ++ ps) (tys ++ ts')
            b' := by
        intro c hcmem
        obtain ⟨tys, hname, harity⟩ := (unionFacts hu).typed c hcmem
        obtain ⟨m, hs, htyped, hcov⟩ := specializeCtor_spec hu hname harity hm
        have hrow : RowTyped Γ P (List.replicate c.numArgs .Anything ++ ps) (tys ++ ts') := by
          rw [harity]
          exact rowTyped_append (rowTyped_replicate tys) hps
        obtain ⟨b', hb', hspec⟩ := ih c m hs _ htyped hrow
        exact ⟨m, tys, b', hname, harity, hcov, by rw [usefulAt, hs]; exact hb', hspec⟩
      obtain ⟨b, hb, hiff⟩ := anyM_spec (f := usefulAt matrix ps) fun c hcmem => by
        obtain ⟨m, tys, b', -, -, -, hat, -⟩ := halts c hcmem
        exact ⟨b', hat⟩
      exact ⟨b, by rw [isUseful_complete hne hc, hb], useful_complete hpop hu halts hiff⟩
  | case7 matrix hne literal ps hs =>
      rw [RowTyped] at hv
      obtain ⟨t, ts', rfl, hp, hps⟩ := hv
      rw [Pattern.Typed] at hp
      obtain ⟨m, hm', -⟩ := specializeLiteral_spec hp.1 hm
      cases hs.symm.trans hm'
  | case8 matrix hne literal ps m hs ih =>
      rw [RowTyped] at hv
      obtain ⟨t, ts', rfl, hp, hps⟩ := hv
      rw [Pattern.Typed] at hp
      obtain ⟨m', hm', htyped, hmem⟩ := specializeLiteral_spec hp.1 hm
      obtain rfl := Option.some.inj (hs.symm.trans hm')
      obtain ⟨b, hb, hspec⟩ := ih _ htyped hps
      exact ⟨b, by rw [isUseful_literal hne hs, hb],
        useful_literal hpop hden hp.1 hp.2 hm hmem hspec⟩

/-! ## Exhaustiveness -/

/-- What `List.Extra.andMap` promises: each result is one function at one argument, and
    there is one unless there is no function or no argument. -/
structure AndMapLaws (andMap : List Row → List (Row → Row) → List Row) : Prop where
  results : ∀ xs fs r, r ∈ andMap xs fs → ∃ f ∈ fs, ∃ x ∈ xs, r = f x
  nonempty : ∀ xs fs, andMap xs fs = [] → xs = [] ∨ fs = []

/-- What `isExhaustive` says of a matrix: it has no example exactly when the matrix covers
    everything, each example has a value the matrix misses, and misses with it all its
    values but some with a literal of the matrix inside. -/
structure ExhaustiveSpec (Γ : Universe) (Has : Value → Γ.Ty → Prop) (P : Literal → Prop)
    (den : Reading) (matrix : List Row) (ts : List Γ.Ty) (examples : List Row) : Prop where
  complete : examples = [] → ∀ vs, HaveTypes Γ.shape vs ts → Covered den matrix vs
  length : ∀ e ∈ examples, e.length = ts.length
  missed : ∀ e ∈ examples, ∃ vs, List.Forall₂ Has vs ts ∧ RowMatches den e vs
    ∧ ¬Covered den matrix vs
  avoiding : ∀ e ∈ examples, ∀ vs, HaveTypes Γ.shape vs ts → Avoids P den vs →
    RowMatches den e vs → ¬Covered den matrix vs

variable {andMap : List Row → List (Row → Row) → List Row}

/-- The step of `isExhaustive` over a column without constructors. -/
theorem isExhaustive_none {matrix : List Row} {n : Nat} (hne : ¬matrix.isEmpty = true)
    (hn : ¬n = 0) (hc : collectCtors matrix = []) :
    isExhaustive andMap matrix n
      = (isExhaustive andMap (defaultRows matrix) (n - 1)).map (List.map (.Anything :: ·)) := by
  rw [isExhaustive, if_neg hne, dif_neg hn]
  split
  · rfl
  · next heq => cases heq.symm.trans hc

/-- Its step over a column that lacks a constructor. -/
theorem isExhaustive_missing {matrix : List Row} {n : Nat} (hne : ¬matrix.isEmpty = true)
    (hn : ¬n = 0) {name : String} {alts : Can.Union} {others : List (String × Can.Union)}
    (hc : collectCtors matrix = (name, alts) :: others)
    (hlt : ((name, alts) :: others).length < alts.numAlts) :
    isExhaustive andMap matrix n
      = (isExhaustive andMap (defaultRows matrix) (n - 1)).map fun rest =>
        andMap rest ((alts.alts.filterMap (isMissing alts (collectCtors matrix))).map List.cons)
    := by
  rw [isExhaustive, if_neg hne, dif_neg hn]
  split
  · next heq => cases heq.symm.trans hc
  · next heq =>
      obtain ⟨hentry, rfl⟩ := List.cons.inj (heq.symm.trans hc)
      obtain ⟨rfl, rfl⟩ := Prod.mk.inj hentry
      rw [if_pos hlt, hc]

/-- What one alternative misses. -/
def examplesAt (andMap : List Row → List (Row → Row) → List Row) (matrix : List Row) (n : Nat)
    (c : Can.Ctor) : Option (List Row) :=
  match specialize (specializeRowByCtor c.name c.numArgs) matrix with
  | none => none
  | some m => isExhaustive andMap m (c.numArgs + n - 1)

/-- Its step over a complete column. -/
theorem isExhaustive_complete {matrix : List Row} {n : Nat} (hne : ¬matrix.isEmpty = true)
    (hn : ¬n = 0) {name : String} {alts : Can.Union} {others : List (String × Can.Union)}
    (hc : collectCtors matrix = (name, alts) :: others)
    (hlt : ¬((name, alts) :: others).length < alts.numAlts) :
    isExhaustive andMap matrix n
      = (alts.alts.mapM fun c => (examplesAt andMap matrix n c).map
        (List.map (recoverCtor alts c.name c.numArgs))).map List.flatten := by
  rw [isExhaustive, if_neg hne, dif_neg hn]
  split
  · next heq => cases heq.symm.trans hc
  · next heq =>
      obtain ⟨hentry, rfl⟩ := List.cons.inj (heq.symm.trans hc)
      obtain ⟨rfl, rfl⟩ := Prod.mk.inj hentry
      rw [if_neg hlt]
      refine congrArg (fun f => Option.map List.flatten (List.mapM f _)) (funext fun c => ?_)
      rw [examplesAt]
      split
      · next hs => rw [hs]; rfl
      · next hs => rw [hs]

/-- A `mapM` of lists that are all there, and what is in them. -/
theorem mapM_flatten_spec {α β : Type} {f : α → Option (List β)} {xs : List α}
    (h : ∀ x ∈ xs, ∃ r, f x = some r) :
    ∃ rs, xs.mapM f = some rs ∧ ∀ e, e ∈ rs.flatten ↔ ∃ x ∈ xs, ∃ r, f x = some r ∧ e ∈ r := by
  induction xs with
  | nil => exact ⟨[], rfl, by simp⟩
  | cons x xs ih =>
      obtain ⟨r, hr⟩ := h x List.mem_cons_self
      obtain ⟨rs, hrs, hmem⟩ := ih fun y hy => h y (List.mem_cons_of_mem x hy)
      refine ⟨r :: rs, ?_, ?_⟩
      · rw [List.mapM_cons, hr, hrs]
        rfl
      · intro e
        rw [List.flatten_cons, List.mem_append, hmem, List.exists_mem_cons_iff, hr]
        simp

/-- An empty matrix misses everything. -/
private theorem exhaustive_empty (hpop : Populated Γ Has) {matrix : List Row} {ts : List Γ.Ty}
    (hempty : matrix.isEmpty = true) :
    ExhaustiveSpec Γ Has P den matrix ts [List.replicate ts.length .Anything] := by
  have hnot : ∀ vs, ¬Covered den matrix vs := by
    rintro vs ⟨row, hrow, -⟩
    rw [List.isEmpty_iff.mp hempty] at hrow
    exact absurd hrow List.not_mem_nil
  refine ⟨fun h => absurd h (List.cons_ne_nil _ _), ?_, ?_, fun e _ vs _ _ _ => hnot vs⟩
  · intro e he
    rw [List.mem_singleton.mp he, List.length_replicate]
  · intro e he
    obtain rfl := List.mem_singleton.mp he
    obtain ⟨vs, hvs⟩ := hpop.types ts
    refine ⟨vs, hvs, ?_, hnot vs⟩
    rw [← hvs.length_eq]
    exact rowMatches_replicate vs

/-- A matrix without columns covers the empty list of values. -/
private theorem exhaustive_noColumns {matrix : List Row}
    (hne : ¬matrix.isEmpty = true) (hm : MatrixTyped Γ P matrix []) :
    ExhaustiveSpec Γ Has P den matrix [] [] := by
  refine ⟨fun _ vs hvs => ?_, ?_, ?_, ?_⟩
  · have hvs0 := List.length_eq_zero_iff.mp (haveTypes_length hvs)
    subst hvs0
    match matrix, hne with
    | row :: rows, _ =>
        have hrow := List.length_eq_zero_iff.mp (rowTyped_length (hm row List.mem_cons_self))
        exact ⟨row, List.mem_cons_self, by rw [hrow, rowMatches_nil]⟩
  · exact fun e he => absurd he List.not_mem_nil
  · exact fun e he => absurd he List.not_mem_nil
  · exact fun e he => absurd he List.not_mem_nil

/-- A column that leaves values to wildcards: `heads` start the examples, and match fresh
    values only, up to those with a literal inside. -/
private theorem exhaustive_fresh {matrix examples : List Row} {t : Γ.Ty} {ts : List Γ.Ty}
    {rest : List Row} (hspec : ExhaustiveSpec Γ Has P den (defaultRows matrix) ts rest)
    (heads : Pattern → Prop) (hmem : ∀ e ∈ examples, ∃ p, heads p ∧ ∃ x ∈ rest, e = p :: x)
    (hnil : examples = [] → rest = [])
    (hfresh : ∀ p, heads p → ∃ v, Has v t ∧ p.Matches den v ∧ Fresh den matrix v)
    (havoid : ∀ p, heads p → ∀ v, (∀ l, P l → v ≠ den l) → p.Matches den v →
      Fresh den matrix v) : ExhaustiveSpec Γ Has P den matrix (t :: ts) examples := by
  refine ⟨fun hempty vs hvs => ?_, fun e he => ?_, fun e he => ?_, fun e he vs hvs hav hmatch => ?_⟩
  · obtain ⟨w, ws', rfl, -, hws'⟩ := haveTypes_of_cons hvs
    exact covered_of_defaultRows (hspec.complete (hnil hempty) ws' hws')
  · obtain ⟨p, -, x, hx, rfl⟩ := hmem e he
    rw [List.length_cons, List.length_cons, hspec.length x hx]
  · obtain ⟨p, hp, x, hx, rfl⟩ := hmem e he
    obtain ⟨v, hv, hpv, hfr⟩ := hfresh p hp
    obtain ⟨vs, hvs, hxvs, hnot⟩ := hspec.missed x hx
    refine ⟨v :: vs, .cons hv hvs, rowMatches_cons.mpr ⟨hpv, hxvs⟩, ?_⟩
    rw [covered_fresh hfr]
    exact hnot
  · obtain ⟨p, hp, x, hx, rfl⟩ := hmem e he
    obtain ⟨w, ws', rfl, -, hws'⟩ := haveTypes_of_cons hvs
    obtain ⟨hpw, hxws⟩ := rowMatches_cons.mp hmatch
    obtain ⟨hw, hws⟩ := avoids_cons hav
    rw [covered_fresh (havoid p hp w hw hpw)]
    exact hspec.avoiding x hx ws' hws' hws hxws

/-- Without constructors only a literal of the column keeps a value from being fresh. -/
theorem fresh_of_avoids {t : Γ.Ty} {ts : List Γ.Ty} {matrix : List Row}
    (hm : MatrixTyped Γ P matrix (t :: ts)) (hc : collectCtors matrix = []) {v : Value}
    (hv : ∀ l, P l → v ≠ den l) : Fresh den matrix v := by
  intro p ps hrow hmatch
  cases p with
  | Anything => rfl
  | Literal l =>
      have hp := (rowTyped_cons.mp (hm _ hrow)).1
      rw [Pattern.Typed] at hp
      rw [Pattern.Matches] at hmatch
      exact absurd hmatch (hv l hp.2)
  | Ctor union name args =>
      have hname := mem_columnNames hrow
      rw [columnNames, hc] at hname
      exact absurd hname List.not_mem_nil

/-- The missing patterns are the constructors that the column does not have. -/
theorem mem_missing {union : Can.Union} {matrix : List Row} {p : Pattern} :
    p ∈ union.alts.filterMap (isMissing union (collectCtors matrix)) ↔
      ∃ c ∈ union.alts, c.name ∉ columnNames matrix
        ∧ p = .Ctor union c.name (List.replicate c.numArgs .Anything) := by
  have hany : ∀ c : Can.Ctor, ((collectCtors matrix).any fun entry => entry.1 = c.name) = true
      ↔ c.name ∈ columnNames matrix := by
    intro c
    rw [List.any_eq_true, columnNames, List.mem_map]
    simp
  rw [List.mem_filterMap]
  constructor
  · rintro ⟨c, hc, hmiss⟩
    refine ⟨c, hc, ?_⟩
    rw [isMissing] at hmiss
    split at hmiss
    · cases hmiss
    · next hnot => exact ⟨fun hmem => hnot ((hany c).mpr hmem), (Option.some.inj hmiss).symm⟩
  · rintro ⟨c, hc, hmiss, rfl⟩
    exact ⟨c, hc, by rw [isMissing, if_neg fun h => hmiss ((hany c).mp h)]⟩

/-- The examples of the missing constructors. -/
private theorem exhaustive_missing (hpop : Populated Γ Has) (hden : Kinded den)
    (hlaws : AndMapLaws andMap) {matrix rest : List Row} {t : Γ.Ty} {ts : List Γ.Ty}
    {union : Can.Union}
    (hu : unionOf Γ t = some union) (hlt : (collectCtors matrix).length < union.numAlts)
    (hspec : ExhaustiveSpec Γ Has P den (defaultRows matrix) ts rest) :
    ExhaustiveSpec Γ Has P den matrix (t :: ts) (andMap rest
      ((union.alts.filterMap (isMissing union (collectCtors matrix))).map List.cons)) := by
  refine exhaustive_fresh hspec
    (fun p => p ∈ union.alts.filterMap (isMissing union (collectCtors matrix)))
    ?_ ?_ ?_ ?_
  · intro e he
    obtain ⟨f, hf, x, hx, rfl⟩ := hlaws.results _ _ e he
    obtain ⟨p, hp, rfl⟩ := List.mem_map.mp hf
    exact ⟨p, hp, x, hx, rfl⟩
  · intro hempty
    refine (hlaws.nonempty _ _ hempty).resolve_right ?_
    intro hnone
    obtain ⟨c, hc, hmiss⟩ := exists_missing hu hlt
    have hmem := mem_missing.mpr ⟨c, hc, hmiss, rfl⟩
    rw [List.map_eq_nil_iff.mp hnone] at hmem
    exact absurd hmem List.not_mem_nil
  · intro p hp
    obtain ⟨c, hc, hmiss, rfl⟩ := mem_missing.mp hp
    obtain ⟨tys, hname, harity⟩ := (unionFacts hu).typed c hc
    obtain ⟨ws, hws⟩ := hpop.types tys
    refine ⟨.ctor c.name ws, hpop.ctor hname hws, matches_ctor.mpr ?_,
      fresh_of_missing hden hmiss ws⟩
    rw [harity, ← hws.length_eq]
    exact rowMatches_replicate ws
  · intro p hp v _ hmatch
    obtain ⟨c, hc, hmiss, rfl⟩ := mem_missing.mp hp
    rw [Pattern.Matches] at hmatch
    obtain ⟨ws, rfl, -⟩ := hmatch
    exact fresh_of_missing hden hmiss ws

/-- The examples of one alternative, put back under its constructor. -/
private theorem matches_recoverCtor {union : Can.Union} {name : String} {arity : Nat} {x : Row}
    {ws vs : List Value} (hlen : ws.length = arity) (hle : arity ≤ x.length) :
    RowMatches den (recoverCtor union name arity x) (.ctor name ws :: vs)
      ↔ RowMatches den x (ws ++ vs) := by
  rw [recoverCtor, rowMatches_cons, matches_ctor]
  conv_rhs => rw [← List.take_append_drop arity x]
  rw [rowMatches_append (by rw [List.length_take, hlen]; exact min_eq_left hle)]

/-- A column with every constructor: the examples are those of the alternatives. -/
private theorem exhaustive_complete (hpop : Populated Γ Has) {matrix examples : List Row} {n : Nat}
    {t : Γ.Ty} {ts : List Γ.Ty} {union : Can.Union} (hu : unionOf Γ t = some union)
    (halts : ∀ c ∈ union.alts, ∃ m tys r, (c.name, tys) ∈ altsOf Γ.shape t
      ∧ c.numArgs = tys.length ∧ (∀ ws vs, ws.length = c.numArgs →
        (Covered den m (ws ++ vs) ↔ Covered den matrix (.ctor c.name ws :: vs)))
      ∧ examplesAt andMap matrix n c = some r ∧ ExhaustiveSpec Γ Has P den m (tys ++ ts) r)
    (hmem : ∀ e, e ∈ examples ↔ ∃ c ∈ union.alts, ∃ r, examplesAt andMap matrix n c = some r
      ∧ ∃ x ∈ r, recoverCtor union c.name c.numArgs x = e) :
    ExhaustiveSpec Γ Has P den matrix (t :: ts) examples := by
  have hlen : ∀ {tys : List Γ.Ty} {x : Row}, x.length = (tys ++ ts).length →
      tys.length ≤ x.length := by
    intro tys x h
    rw [h, List.length_append]
    exact Nat.le_add_right _ _
  refine ⟨fun hempty vs hvs => ?_, fun e he => ?_, fun e he => ?_, fun e he vs hvs hav hmatch => ?_⟩
  · obtain ⟨w, ws', rfl, hw, hws'⟩ := haveTypes_of_cons hvs
    obtain ⟨name, tys', ws, rfl, hname, hws⟩ := (unionFacts hu).values w hw
    obtain ⟨c, hc, rfl, -⟩ := (unionFacts hu).named name tys' hname
    obtain ⟨m, tys, r, hctys, harity, hcov, hr, hspec⟩ := halts c hc
    obtain rfl := alts_unique hname hctys
    refine (hcov ws ws' ((haveTypes_length hws).trans harity.symm)).mp
      (hspec.complete ?_ _ (haveTypes_append hws hws'))
    by_contra hne
    obtain ⟨x, hx⟩ := List.exists_mem_of_ne_nil r hne
    have he := (hmem _).mpr ⟨c, hc, r, hr, x, hx, rfl⟩
    rw [hempty] at he
    exact absurd he List.not_mem_nil
  · obtain ⟨c, hc, r', hr', x, hx, rfl⟩ := (hmem e).mp he
    obtain ⟨m, tys, r, hctys, harity, hcov, hr, hspec⟩ := halts c hc
    obtain rfl := Option.some.inj (hr.symm.trans hr')
    have hx' := hspec.length x hx
    rw [List.length_append] at hx'
    rw [recoverCtor, List.length_cons, List.length_drop, List.length_cons, hx', harity,
      Nat.add_sub_cancel_left]
  · obtain ⟨c, hc, r', hr', x, hx, rfl⟩ := (hmem e).mp he
    obtain ⟨m, tys, r, hctys, harity, hcov, hr, hspec⟩ := halts c hc
    obtain rfl := Option.some.inj (hr.symm.trans hr')
    obtain ⟨us, hus, hmatch, hnot⟩ := hspec.missed x hx
    obtain ⟨ws, vs, rfl, hws, hvs⟩ := forall₂_split hus
    have hwlen : ws.length = c.numArgs := hws.length_eq.trans harity.symm
    have hle : c.numArgs ≤ x.length := harity ▸ hlen (hspec.length x hx)
    refine ⟨.ctor c.name ws :: vs, .cons (hpop.ctor hctys hws) hvs,
      (matches_recoverCtor hwlen hle).mpr hmatch, ?_⟩
    rw [← hcov ws vs hwlen]
    exact hnot
  · obtain ⟨c, hc, r', hr', x, hx, rfl⟩ := (hmem e).mp he
    obtain ⟨m, tys, r, hctys, harity, hcov, hr, hspec⟩ := halts c hc
    obtain rfl := Option.some.inj (hr.symm.trans hr')
    obtain ⟨w, ws', rfl, hw, hws'⟩ := haveTypes_of_cons hvs
    -- the example matches the values of `c` only
    have hctor := (rowMatches_cons.mp hmatch).1
    rw [Pattern.Matches] at hctor
    obtain ⟨ws, rfl, -⟩ := hctor
    rw [HasType] at hw
    obtain ⟨tys', hname, hws⟩ := hw
    obtain rfl := alts_unique hname hctys
    have hwlen : ws.length = c.numArgs := (haveTypes_length hws).trans harity.symm
    have hle : c.numArgs ≤ x.length := harity ▸ hlen (hspec.length x hx)
    rw [← hcov ws ws' hwlen]
    exact hspec.avoiding x hx _ (haveTypes_append hws hws') (avoids_ctor hav)
      ((matches_recoverCtor hwlen hle).mp hmatch)

/-- `isExhaustive` answers for every typed matrix, and says what the matrix misses. -/
theorem isExhaustive_spec (hpop : Populated Γ Has) (hden : Kinded den)
    (hlaws : AndMapLaws andMap) (matrix : List Row) (n : Nat) (ts : List Γ.Ty) (hn : n = ts.length)
    (hm : MatrixTyped Γ P matrix ts) :
    ∃ examples, isExhaustive andMap matrix n = some examples
      ∧ ExhaustiveSpec Γ Has P den matrix ts examples := by
  -- the cases of the source: no rows, no columns, no constructor, some of them, all of them
  induction matrix, n using isExhaustive.induct generalizing ts with
  | case1 matrix n hempty =>
      subst hn
      exact ⟨_, by rw [isExhaustive, if_pos hempty], exhaustive_empty hpop hempty⟩
  | case2 matrix hne =>
      obtain rfl := List.length_eq_zero_iff.mp hn.symm
      exact ⟨[], by rw [isExhaustive, if_neg hne, dif_pos rfl], exhaustive_noColumns hne hm⟩
  | case3 matrix n hne hn0 hc ih =>
      obtain ⟨t, ts, rfl⟩ := List.exists_cons_of_length_pos (hn ▸ Nat.pos_of_ne_zero hn0)
      obtain ⟨rest, hrest, hspec⟩ := ih ts (by rw [hn]; rfl) (matrixTyped_defaultRows hm)
      refine ⟨_, by rw [isExhaustive_none hne hn0 hc, hrest]; rfl, ?_⟩
      refine exhaustive_fresh hspec (fun p => p = .Anything) ?_ ?_ ?_ ?_
      · intro e he
        obtain ⟨x, hx, rfl⟩ := List.mem_map.mp he
        exact ⟨_, rfl, x, hx, rfl⟩
      · exact List.map_eq_nil_iff.mp
      · rintro p rfl
        obtain ⟨v, hv, hfr⟩ := exists_fresh_of_none hpop hm hc
        exact ⟨v, hv, by rw [Pattern.Matches]; trivial, hfr⟩
      · intro p _ v hv _
        exact fresh_of_avoids hm hc hv
  | case4 matrix n hne hn0 name alts others hc hlt ih =>
      obtain ⟨t, ts, rfl⟩ := List.exists_cons_of_length_pos (hn ▸ Nat.pos_of_ne_zero hn0)
      obtain ⟨rest, hrest, hspec⟩ := ih ts (by rw [hn]; rfl) (matrixTyped_defaultRows hm)
      have hu := (collectCtors_typed hm (hc ▸ List.mem_cons_self)).1
      exact ⟨_, by rw [isExhaustive_missing hne hn0 hc hlt, hrest]; rfl,
        exhaustive_missing hpop hden hlaws hu (hc ▸ hlt) hspec⟩
  | case5 matrix n hne hn0 name alts others hc hlt ih =>
      obtain ⟨t, ts, rfl⟩ := List.exists_cons_of_length_pos (hn ▸ Nat.pos_of_ne_zero hn0)
      have hu := (collectCtors_typed hm (hc ▸ List.mem_cons_self)).1
      -- every constructor is there: each has a matrix of its own, over its arguments
      have halts : ∀ c ∈ alts.alts, ∃ m tys r, (c.name, tys) ∈ altsOf Γ.shape t
          ∧ c.numArgs = tys.length ∧ (∀ ws vs, ws.length = c.numArgs →
            (Covered den m (ws ++ vs) ↔ Covered den matrix (.ctor c.name ws :: vs)))
          ∧ examplesAt andMap matrix n c = some r
          ∧ ExhaustiveSpec Γ Has P den m (tys ++ ts) r := by
        intro c hcmem
        obtain ⟨tys, hname, harity⟩ := (unionFacts hu).typed c hcmem
        obtain ⟨m, hs, htyped, hcov⟩ := specializeCtor_spec hu hname harity hm
        have hlen : c.numArgs + n - 1 = (tys ++ ts).length := by
          rw [hn, harity, List.length_append, List.length_cons]
          omega
        obtain ⟨r, hr, hspec⟩ := ih c m hs (tys ++ ts) hlen htyped
        exact ⟨m, tys, r, hname, harity, hcov, by rw [examplesAt, hs]; exact hr, hspec⟩
      obtain ⟨rs, hrs, hflat⟩ := mapM_flatten_spec
        (f := fun c => (examplesAt andMap matrix n c).map
          (List.map (recoverCtor alts c.name c.numArgs))) fun c hcmem => by
        obtain ⟨m, tys, r, -, -, -, hat, -⟩ := halts c hcmem
        exact ⟨_, by rw [hat]; rfl⟩
      refine ⟨_, by rw [isExhaustive_complete hne hn0 hc hlt, hrs]; rfl,
        exhaustive_complete hpop hu halts ?_⟩
      intro e
      rw [hflat]
      refine exists_congr fun c => and_congr_right fun hcmem => ?_
      obtain ⟨m, tys, r, -, -, -, hat, -⟩ := halts c hcmem
      rw [hat]
      simp

/-- The other half of `complete`. -/
theorem ExhaustiveSpec.eq_nil {matrix examples : List Row} {ts : List Γ.Ty}
    (h : ExhaustiveSpec Γ (HasType Γ.shape) P den matrix ts examples)
    (hcov : ∀ vs, HaveTypes Γ.shape vs ts → Covered den matrix vs) : examples = [] := by
  by_contra hne
  obtain ⟨e, he⟩ := List.exists_mem_of_ne_nil examples hne
  obtain ⟨vs, hvs, -, hnot⟩ := h.missed e he
  exact hnot (hcov vs (haveTypes_iff.mpr hvs))

end PatternMatches

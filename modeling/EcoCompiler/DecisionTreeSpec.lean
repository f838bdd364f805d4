import EcoCompiler.DecisionTree

/-! # Rows of a decision tree

    What the entries of a row say of a value, and what keeps them apart.

    * `holds_entriesOf`: a flattened pattern holds of a value that the pattern matches;
    * `entriesOf_typed`: its entries are patterns of the types at their positions;
    * `entriesOf_fits`: no entry needs a test at or above another one's position. -/

open TypedPath (ContainerHint Path)

/-! ## Positions -/

namespace TypedPath.Path

/-- The steps of a path, outermost first. -/
def steps : Path → List (Option (Nat × ContainerHint))
  | .Empty => []
  | .Index index hint path => some (index, hint) :: path.steps
  | .Unbox path => none :: path.steps

/-- A path is known by its steps. -/
theorem steps_injective : ∀ p q : Path, p.steps = q.steps → p = q
  | .Empty, .Empty, _ => rfl
  | .Index i h p, .Index j k q, heq => by
      obtain ⟨h1, h2⟩ := List.cons.inj heq
      obtain ⟨rfl, rfl⟩ := Prod.mk.inj (Option.some.inj h1)
      rw [steps_injective p q h2]
  | .Unbox p, .Unbox q, heq => by rw [steps_injective p q (List.cons.inj heq).2]
  | .Empty, .Index _ _ _, heq => (by cases heq)
  | .Empty, .Unbox _, heq => (by cases heq)
  | .Index _ _ _, .Empty, heq => (by cases heq)
  | .Index _ _ _, .Unbox _, heq => (by cases heq)
  | .Unbox _, .Empty, heq => (by cases heq)
  | .Unbox _, .Index _ _ _, heq => (by cases heq)

/-- `q` is at `p` or inside it. -/
def Above (p q : Path) : Prop := p.steps <:+ q.steps

theorem Above.refl (p : Path) : p.Above p := List.suffix_refl _

theorem Above.trans {p q r : Path} (h : p.Above q) (h' : q.Above r) : p.Above r :=
  List.IsSuffix.trans h h'

/-- Two positions inside each other are one. -/
theorem Above.antisymm {p q : Path} (h : p.Above q) (h' : q.Above p) : p = q :=
  steps_injective p q (h.eq_of_length_le h'.length_le)

/-- Two positions above a third are one above the other. -/
theorem Above.total {p q r : Path} (h : p.Above r) (h' : q.Above r) : p.Above q ∨ q.Above p :=
  List.suffix_or_suffix_of_suffix h h'

/-- A field of a container is inside the container. -/
theorem above_index (index : Nat) (hint : ContainerHint) (p : Path) :
    p.Above (.Index index hint p) := List.suffix_cons _ _

theorem above_unbox (p : Path) : p.Above (.Unbox p) := List.suffix_cons _ _

/-- Nothing is inside two fields. -/
theorem index_disjoint {i j : Nat} {hint : ContainerHint} {p q : Path} (hij : i ≠ j)
    (hi : Above (.Index i hint p) q) (hj : Above (.Index j hint p) q) : False := by
  have hlen : (Path.Index i hint p).steps.length = (Path.Index j hint p).steps.length := rfl
  rcases hi.total hj with h | h
  · have := steps_injective _ _ (h.eq_of_length hlen)
    exact hij (Path.Index.inj this).1
  · have := steps_injective _ _ (h.eq_of_length hlen.symm)
    exact hij (Path.Index.inj this).1.symm

end TypedPath.Path

namespace DecisionTree

/-! ## What an entry says -/

/-- What a flattened pattern matches. -/
def FlatPattern.Matches : FlatPattern → Value → Prop
  | .FAnything, _ => True
  | .FCtor _ name _ _ _ args, v => ∃ vs, v = .ctor name vs ∧ Can.Pattern.ArgsMatch args vs
  | .FNil, v => v = .ctor nilName []
  | .FCons hd tl, v => ∃ x xs, v = .ctor consName [x, xs] ∧ hd.Matches x ∧ tl.Matches xs
  | .FInt n, v => v = .int n
  | .FChr text, v => v = .chr (StringLiteral.valueKey text)
  | .FStr text, v => v = .str (StringLiteral.valueKey text)
  | .FBool bool, v => v = .ctor (boolName bool) []

/-- An entry is about a part that the value has. -/
def Defined (v : Value) (entry : Entry) : Prop := ∃ w, entry.1.get v = some w

/-- An entry holds of a value. -/
def Holds (v : Value) (entry : Entry) : Prop :=
  ∃ w, entry.1.get v = some w ∧ entry.2.Matches w

/-- An entry holds of a value when the part at its path matches. -/
theorem holds_iff {v w : Value} {path : Path} {pattern : FlatPattern}
    (h : path.get v = some w) : Holds v (path, pattern) ↔ pattern.Matches w := by
  constructor
  · rintro ⟨w', hw', hmatch⟩
    obtain rfl := Option.some.inj (h.symm.trans hw')
    exact hmatch
  · exact fun hmatch => ⟨w, h, hmatch⟩

/-- The part at a field, read off the container's arguments. -/
theorem get_index {v : Value} {path : Path} {name : String} {ws : List Value}
    {hint : ContainerHint} (h : path.get v = some (.ctor name ws)) (hname : name = hint.ctorName)
    (index : Nat) : (Path.Index index hint path).get v = ws[index]? := by
  rw [Path.get, h]
  exact if_pos hname

/-- The part inside a box, read off its one argument. -/
theorem get_unbox {v w : Value} {path : Path} {name : String}
    (h : path.get v = some (.ctor name [w])) : (Path.Unbox path).get v = some w := by
  rw [Path.get, h]

/-! ## Types of positions -/

section
variable (Γ : Universe)

/-- The type of the part at a path. -/
def PathTyped (t : Γ.Ty) : Path → Γ.Ty → Prop
  | .Empty, tp => tp = t
  | .Index index hint path, tp =>
      ∃ q tys, PathTyped t path q ∧ (hint.ctorName, tys) ∈ altsOf Γ.shape q
        ∧ tys[index]? = some tp
  | .Unbox path, tp => ∃ q name, PathTyped t path q ∧ altsOf Γ.shape q = [(name, [tp])]

/-- A flattened pattern is one of a type. -/
def FlatPattern.Typed : FlatPattern → Γ.Ty → Prop
  | .FAnything, _ => True
  | .FCtor home name index numAlts _ ps, t =>
      ∃ union args c tys, Γ.shape t = .custom home union args ∧ union.alts[index]? = some c
        ∧ c.name = name ∧ numAlts = union.numAlts ∧ args[index]? = some tys
        ∧ Can.Pattern.ArgsTyped Γ ps tys
  | .FNil, t => ∃ a, Γ.shape t = .list a
  | .FCons hd tl, t => ∃ a, Γ.shape t = .list a ∧ hd.WellTyped Γ a ∧ tl.WellTyped Γ t
  | .FInt _, t => Γ.shape t = .int
  | .FChr _, t => Γ.shape t = .chr
  | .FStr _, t => Γ.shape t = .str
  | .FBool _, t => ∃ union, Γ.shape t = .bool union

/-- An entry is a pattern of the type at its position. -/
def EntryTyped (t : Γ.Ty) (entry : Entry) : Prop :=
  ∃ tp, PathTyped Γ t entry.1 tp ∧ entry.2.Typed Γ tp

end

section
variable {Γ : Universe} {t : Γ.Ty}

/-- The part at a path has one type. -/
theorem pathTyped_unique {path : Path} {a b : Γ.Ty} (ha : PathTyped Γ t path a)
    (hb : PathTyped Γ t path b) : a = b := by
  induction path generalizing a b with
  | Empty => exact ha.trans hb.symm
  | Index index hint path ih =>
      obtain ⟨q, tys, hq, hmem, hget⟩ := ha
      obtain ⟨q', tys', hq', hmem', hget'⟩ := hb
      obtain rfl := ih hq hq'
      obtain rfl := alts_unique hmem hmem'
      exact Option.some.inj (hget.symm.trans hget')
  | Unbox path ih =>
      obtain ⟨q, name, hq, halts⟩ := ha
      obtain ⟨q', name', hq', halts'⟩ := hb
      obtain rfl := ih hq hq'
      have h := halts.symm.trans halts'
      exact (List.cons.inj (Prod.mk.inj (List.cons.inj h).1).2).1

theorem haveTypes_getElem {vs : List Value} {ts : List Γ.Ty} (h : HaveTypes Γ.shape vs ts)
    {i : Nat} {v : Value} {tp : Γ.Ty} (hv : vs[i]? = some v) (htp : ts[i]? = some tp) :
    HasType Γ.shape v tp := by
  induction vs generalizing ts i with
  | nil => cases hv
  | cons w vs ih =>
      rw [HaveTypes] at h
      obtain ⟨tw, ts', rfl, hw, hvs⟩ := h
      cases i with
      | zero =>
          obtain rfl := Option.some.inj hv
          obtain rfl := Option.some.inj htp
          exact hw
      | succ i => exact ih hvs hv htp

/-- The part at a path has the type of the path. -/
theorem hasType_get {v w : Value} {path : Path} {tp : Γ.Ty} (hv : HasType Γ.shape v t)
    (hget : path.get v = some w) (htp : PathTyped Γ t path tp) : HasType Γ.shape w tp := by
  -- by the path: the part inside it is typed, and then its field
  induction path generalizing w tp with
  | Empty =>
      obtain rfl := Option.some.inj hget
      rw [PathTyped] at htp
      rw [htp]
      exact hv
  | Index index hint path ih =>
      obtain ⟨q, tys, hq, hmem, hty⟩ := htp
      rw [Path.get] at hget
      cases hinner : path.get v with
      | none =>
          rw [hinner] at hget
          cases hget
      | some u =>
          rw [hinner] at hget
          have hu := ih hinner hq
          cases u with
          | ctor name ws =>
              rw [HasType] at hu
              obtain ⟨tys', hmem', hws⟩ := hu
              by_cases hname : name = hint.ctorName
              · subst hname
                obtain rfl := alts_unique hmem hmem'
                exact haveTypes_getElem hws ((if_pos rfl).symm.trans hget) hty
              · cases (if_neg hname).symm.trans hget
          | int n => cases hget
          | chr key => cases hget
          | str key => cases hget
          | other id => cases hget
  | Unbox path ih =>
      obtain ⟨q, name, hq, halts⟩ := htp
      rw [Path.get] at hget
      cases hinner : path.get v with
      | none =>
          rw [hinner] at hget
          cases hget
      | some u =>
          rw [hinner] at hget
          have hu := ih hinner hq
          match u, hget with
          | .ctor name' [arg], hget =>
              obtain rfl := Option.some.inj hget
              rw [HasType, halts] at hu
              obtain ⟨tys, hmem, hws⟩ := hu
              obtain ⟨-, rfl⟩ := Prod.mk.inj (List.mem_singleton.mp hmem)
              exact (haveTypes_cons.mp hws).1

end

/-! ## The entries of a pattern -/

/-- The entries that a pattern at a position is flattened to. -/
def entriesOf (path : Path) (pattern : Can.Pattern) : List Entry := flatten path pattern []

/-- The entries of the parts of a container. -/
def entriesOfAll (hint : ContainerHint) (path : Path) (index : Nat)
    (patterns : List Can.Pattern) : List Entry :=
  flattenAll hint path index patterns []

mutual

/-- Flattening puts the entries of a pattern in front of the others. -/
theorem flatten_eq (path : Path) (p : Can.Pattern) (others : List Entry) :
    flatten path p others = entriesOf path p ++ others := by
  cases p with
  | PTuple a b =>
      rw [entriesOf, flatten, flatten, flatten_eq _ a, flatten_eq _ b others,
        flatten_eq _ a (flatten _ b []), flatten_eq _ b [], List.append_nil, List.append_assoc]
  | PTuple3 a b c =>
      rw [entriesOf, flatten, flatten, flatten_eq _ a, flatten_eq _ b, flatten_eq _ c others,
        flatten_eq _ a (flatten _ b (flatten _ c [])), flatten_eq _ b (flatten _ c []),
        flatten_eq _ c [], List.append_nil, List.append_assoc, List.append_assoc]
  | PAlias q name =>
      rw [entriesOf, flatten, flatten, flatten_eq _ q, flatten_eq _ q [(path, .FAnything)],
        List.append_assoc]
      rfl
  | PCtor home type_ union name index args =>
      rw [entriesOf, flatten.eq_def, flatten.eq_def]
      by_cases hone : union.numAlts = 1
      · simp only [if_pos hone]
        match args with
        | [] => exact flattenAll_eq _ path 0 [] others
        | [arg] => exact flatten_eq _ arg others
        | a :: b :: args => exact flattenAll_eq _ path 0 (a :: b :: args) others
      · simp only [if_neg hone]
        rfl
  | PList ps => cases ps <;> rw [entriesOf, flatten, flatten] <;> rfl
  | PAnything => rw [entriesOf, flatten, flatten]; rfl
  | PVar name => rw [entriesOf, flatten, flatten]; rfl
  | PRecord fields => rw [entriesOf, flatten, flatten]; rfl
  | PUnit => rw [entriesOf, flatten, flatten]; rfl
  | PCons hd tl => rw [entriesOf, flatten, flatten]; rfl
  | PBool union bool => rw [entriesOf, flatten, flatten]; rfl
  | PChr text => rw [entriesOf, flatten, flatten]; rfl
  | PStr text multiline => rw [entriesOf, flatten, flatten]; rfl
  | PInt n => rw [entriesOf, flatten, flatten]; rfl

/-- Flattening the parts of a container puts their entries before the others. -/
theorem flattenAll_eq (hint : ContainerHint) (path : Path) (index : Nat)
    (ps : List Can.Pattern) (others : List Entry) :
    flattenAll hint path index ps others = entriesOfAll hint path index ps ++ others := by
  cases ps with
  | nil => rw [entriesOfAll, flattenAll, flattenAll]; rfl
  | cons p ps =>
      rw [entriesOfAll, flattenAll, flattenAll, flatten_eq _ p,
        flattenAll_eq hint path (index + 1) ps others, flatten_eq _ p (flattenAll _ _ _ _ []),
        flattenAll_eq hint path (index + 1) ps [], List.append_nil, List.append_assoc]

end

theorem entriesOfAll_cons (hint : ContainerHint) (path : Path) (index : Nat) (p : Can.Pattern)
    (ps : List Can.Pattern) :
    entriesOfAll hint path index (p :: ps)
      = entriesOf (.Index index hint path) p ++ entriesOfAll hint path (index + 1) ps := by
  rw [entriesOfAll, flattenAll, flatten_eq]
  rfl

theorem entriesOf_pair (path : Path) (a b : Can.Pattern) :
    entriesOf path (.PTuple a b) = entriesOfAll .HintTuple2 path 0 [a, b] := by
  rw [entriesOf, flatten, entriesOfAll, flattenAll, flattenAll, flattenAll]

theorem entriesOf_triple (path : Path) (a b c : Can.Pattern) :
    entriesOf path (.PTuple3 a b c) = entriesOfAll .HintTuple3 path 0 [a, b, c] := by
  rw [entriesOf, flatten, entriesOfAll, flattenAll, flattenAll, flattenAll, flattenAll]

theorem entriesOf_alias (path : Path) (p : Can.Pattern) (name : String) :
    entriesOf path (.PAlias p name) = entriesOf path p ++ [(path, .FAnything)] := by
  rw [entriesOf, flatten, flatten_eq]

/-- A pattern of a type with several constructors is one entry. -/
theorem entriesOf_ctor {path : Path} {home : Can.ModuleName} {type_ : String}
    {union : Can.Union} {name : String} {index : Nat} {args : List Can.Pattern}
    (h : union.numAlts ≠ 1) :
    entriesOf path (.PCtor home type_ union name index args)
      = [(path, .FCtor home name index union.numAlts union.opts args)] := by
  rw [entriesOf, flatten.eq_def]
  exact if_neg h

/-- The one argument of the one constructor is unboxed. -/
theorem entriesOf_unbox {path : Path} {home : Can.ModuleName} {type_ : String}
    {union : Can.Union} {name : String} {index : Nat} {arg : Can.Pattern}
    (h : union.numAlts = 1) :
    entriesOf path (.PCtor home type_ union name index [arg]) = entriesOf (.Unbox path) arg := by
  rw [entriesOf, flatten.eq_def]
  exact if_pos h

/-- Other arguments of the one constructor are numbered. -/
theorem entriesOf_single {path : Path} {home : Can.ModuleName} {type_ : String}
    {union : Can.Union} {name : String} {index : Nat} {args : List Can.Pattern}
    (h : union.numAlts = 1) (hlen : args.length ≠ 1) :
    entriesOf path (.PCtor home type_ union name index args)
      = entriesOfAll (.HintCustom name) path 0 args := by
  rw [entriesOf, flatten.eq_def]
  match args, hlen with
  | [], _ => exact if_pos h
  | a :: b :: args, _ => exact if_pos h

/-! ### Their types -/

section
variable {Γ : Universe} {t : Γ.Ty}

/-- Typed arguments, split at the first. -/
theorem argsTyped_of_cons {p : Can.Pattern} {ps : List Can.Pattern} {ts : List Γ.Ty}
    (h : Can.Pattern.ArgsTyped Γ (p :: ps) ts) :
    ∃ tp ts', ts = tp :: ts' ∧ p.WellTyped Γ tp ∧ Can.Pattern.ArgsTyped Γ ps ts' := by
  rw [Can.Pattern.ArgsTyped] at h
  exact h

theorem argsTyped_two {a b : Can.Pattern} {ta tb : Γ.Ty} (ha : a.WellTyped Γ ta)
    (hb : b.WellTyped Γ tb) : Can.Pattern.ArgsTyped Γ [a, b] [ta, tb] := by
  rw [Can.Pattern.ArgsTyped]
  refine ⟨ta, [tb], rfl, ha, ?_⟩
  rw [Can.Pattern.ArgsTyped]
  exact ⟨tb, [], rfl, hb, by rw [Can.Pattern.ArgsTyped]⟩

/-- The only constructor of a type, and its argument types. -/
theorem altsOf_single {tp : Γ.Ty} {home : Can.ModuleName} {union : Can.Union}
    {args : List (List Γ.Ty)} (hs : Γ.shape tp = .custom home union args)
    (hone : union.numAlts = 1) {name : String} {tys : List Γ.Ty}
    (hmem : (name, tys) ∈ altsOf Γ.shape tp) : altsOf Γ.shape tp = [(name, tys)] := by
  have hdecl := Γ.custom tp _ _ _ hs
  have hlen : (altsOf Γ.shape tp).length = 1 := by
    rw [altsOf, hs, List.length_zip, List.length_map, hdecl.lengths, min_self, ← hdecl.numAlts,
      hone]
  obtain ⟨entry, hentry⟩ := List.length_eq_one_iff.mp hlen
  rw [hentry] at hmem ⊢
  rw [List.mem_singleton.mp hmem]

mutual

/-- The entries of a pattern are patterns of the types at their positions. -/
theorem entriesOf_typed {path : Path} {p : Can.Pattern} {tp : Γ.Ty}
    (hpath : PathTyped Γ t path tp) (hp : p.WellTyped Γ tp) :
    ∀ e ∈ entriesOf path p, EntryTyped Γ t e := by
  have hone : ∀ flat : FlatPattern, flat.Typed Γ tp →
      ∀ e ∈ [((path, flat) : Entry)], EntryTyped Γ t e := by
    intro flat hflat e he
    rw [List.mem_singleton.mp he]
    exact ⟨tp, hpath, hflat⟩
  cases p with
  | PAnything => rw [entriesOf, flatten]; exact hone .FAnything trivial
  | PVar name => rw [entriesOf, flatten]; exact hone .FAnything trivial
  | PRecord fields => rw [entriesOf, flatten]; exact hone .FAnything trivial
  | PUnit =>
      rw [entriesOf, flatten]
      exact fun e he => absurd he List.not_mem_nil
  | PAlias q name =>
      rw [Can.Pattern.WellTyped] at hp
      rw [entriesOf_alias]
      intro e he
      rcases List.mem_append.mp he with he | he
      · exact entriesOf_typed hpath hp e he
      · exact hone .FAnything trivial e he
  | PTuple a b =>
      rw [Can.Pattern.WellTyped] at hp
      obtain ⟨ta, tb, hs, ha, hb⟩ := hp
      rw [entriesOf_pair, entriesOfAll_cons, entriesOfAll_cons]
      -- the fields of a tuple stand at the positions of its only constructor
      have hfield : ∀ i ti, [ta, tb][i]? = some ti →
          PathTyped Γ t (.Index i .HintTuple2 path) ti := fun i ti hi =>
        ⟨tp, [ta, tb], hpath, by rw [altsOf, hs]; exact List.mem_singleton.mpr rfl, hi⟩
      intro e he
      rcases List.mem_append.mp he with he | he
      · exact entriesOf_typed (hfield 0 ta rfl) ha e he
      rcases List.mem_append.mp he with he | he
      · exact entriesOf_typed (hfield 1 tb rfl) hb e he
      · rw [entriesOfAll, flattenAll] at he
        exact absurd he List.not_mem_nil
  | PTuple3 a b c =>
      rw [Can.Pattern.WellTyped] at hp
      obtain ⟨ta, tb, tc, hs, ha, hb, hc⟩ := hp
      rw [entriesOf_triple, entriesOfAll_cons, entriesOfAll_cons, entriesOfAll_cons]
      have hfield : ∀ i ti, [ta, tb, tc][i]? = some ti →
          PathTyped Γ t (.Index i .HintTuple3 path) ti := fun i ti hi =>
        ⟨tp, [ta, tb, tc], hpath, by rw [altsOf, hs]; exact List.mem_singleton.mpr rfl, hi⟩
      intro e he
      rcases List.mem_append.mp he with he | he
      · exact entriesOf_typed (hfield 0 ta rfl) ha e he
      rcases List.mem_append.mp he with he | he
      · exact entriesOf_typed (hfield 1 tb rfl) hb e he
      rcases List.mem_append.mp he with he | he
      · exact entriesOf_typed (hfield 2 tc rfl) hc e he
      · rw [entriesOfAll, flattenAll] at he
        exact absurd he List.not_mem_nil
  | PList ps =>
      rw [Can.Pattern.WellTyped] at hp
      obtain ⟨a, hs, hps⟩ := hp
      cases ps with
      | nil =>
          rw [entriesOf, flatten]
          exact hone _ ⟨a, hs⟩
      | cons hd tl =>
          rw [Can.Pattern.EntriesTyped] at hps
          rw [entriesOf, flatten]
          refine hone _ ⟨a, hs, hps.1, ?_⟩
          rw [Can.Pattern.WellTyped]
          exact ⟨a, hs, hps.2⟩
  | PCons hd tl =>
      rw [Can.Pattern.WellTyped] at hp
      rw [entriesOf, flatten]
      exact hone _ hp
  | PBool union bool =>
      rw [Can.Pattern.WellTyped] at hp
      rw [entriesOf, flatten]
      exact hone _ ⟨union, hp⟩
  | PChr text => rw [Can.Pattern.WellTyped] at hp; rw [entriesOf, flatten]; exact hone _ hp
  | PStr text multiline =>
      rw [Can.Pattern.WellTyped] at hp
      rw [entriesOf, flatten]
      exact hone _ hp
  | PInt n => rw [Can.Pattern.WellTyped] at hp; rw [entriesOf, flatten]; exact hone _ hp
  | PCtor home type_ union name index ps =>
      rw [Can.Pattern.WellTyped] at hp
      obtain ⟨args, c, tys, hs, hc, rfl, htys, hps⟩ := hp
      have hmem := alts_of_index hs hc htys
      -- only a constructor without siblings is flattened away
      by_cases hnum : union.numAlts = 1
      · match ps, hps with
        | [arg], hps =>
            obtain ⟨ta, ts', rfl, harg, hnil⟩ := argsTyped_of_cons hps
            rw [Can.Pattern.ArgsTyped] at hnil
            subst hnil
            rw [entriesOf_unbox hnum]
            exact entriesOf_typed ⟨tp, c.name, hpath, altsOf_single hs hnum hmem⟩ harg
        | [], hps =>
            rw [entriesOf_single hnum (by simp), entriesOfAll, flattenAll]
            exact fun e he => absurd he List.not_mem_nil
        | a :: b :: ps, hps =>
            rw [entriesOf_single hnum (by simp)]
            exact entriesOfAll_typed hpath hmem (by rw [List.drop_zero]; exact hps)
      · rw [entriesOf_ctor hnum]
        exact hone _ ⟨union, args, c, tys, hs, hc, rfl, rfl, htys, hps⟩

/-- The entries of a container's parts are typed. -/
theorem entriesOfAll_typed {hint : ContainerHint} {path : Path} {index : Nat}
    {ps : List Can.Pattern} {tp : Γ.Ty} {tys : List Γ.Ty} (hpath : PathTyped Γ t path tp)
    (hmem : (hint.ctorName, tys) ∈ altsOf Γ.shape tp)
    (hps : Can.Pattern.ArgsTyped Γ ps (tys.drop index)) :
    ∀ e ∈ entriesOfAll hint path index ps, EntryTyped Γ t e := by
  cases ps with
  | nil =>
      rw [entriesOfAll, flattenAll]
      exact fun e he => absurd he List.not_mem_nil
  | cons p ps =>
      obtain ⟨ti, ts', hdrop, hp, hps'⟩ := argsTyped_of_cons hps
      have hget : tys[index]? = some ti := by
        rw [← List.head?_drop, hdrop]
        rfl
      have hdrop' : tys.drop (index + 1) = ts' := by
        rw [← List.tail_drop, hdrop]
        rfl
      rw [entriesOfAll_cons]
      intro e he
      rcases List.mem_append.mp he with he | he
      · have hfield : PathTyped Γ t (.Index index hint path) ti := ⟨tp, tys, hpath, hmem, hget⟩
        exact entriesOf_typed hfield hp e he
      · exact entriesOfAll_typed hpath hmem (hdrop' ▸ hps') e he

end

end

/-! ### What they say of a value -/

/-- A value answers a list of entries as the proposition does. -/
def Answers (v : Value) (entries : List Entry) (matched : Prop) : Prop :=
  (∀ e ∈ entries, Defined v e) ∧ ((∀ e ∈ entries, Holds v e) ↔ matched)

theorem answers_nil {v : Value} : Answers v [] True :=
  ⟨fun _ he => absurd he List.not_mem_nil,
    ⟨fun _ => trivial, fun _ _ he => absurd he List.not_mem_nil⟩⟩

/-- One entry answers as its pattern matches. -/
theorem answers_one {v w : Value} {path : Path} {pattern : FlatPattern} {matched : Prop}
    (h : path.get v = some w) (hiff : pattern.Matches w ↔ matched) :
    Answers v [(path, pattern)] matched := by
  refine ⟨fun e he => ?_, ?_⟩
  · rw [List.mem_singleton.mp he]
    exact ⟨w, h⟩
  · rw [← hiff, ← holds_iff h]
    exact ⟨fun hall => hall _ List.mem_cons_self, fun hone e he => by
      rw [List.mem_singleton.mp he]
      exact hone⟩

/-- Entries one after the other answer both questions. -/
theorem answers_append {v : Value} {as bs : List Entry} {p q : Prop} (ha : Answers v as p)
    (hb : Answers v bs q) : Answers v (as ++ bs) (p ∧ q) := by
  refine ⟨fun e he => (List.mem_append.mp he).elim (ha.1 e) (hb.1 e), ?_⟩
  rw [← ha.2, ← hb.2]
  constructor
  · intro h
    exact ⟨fun e he => h e (List.mem_append_left _ he),
      fun e he => h e (List.mem_append_right _ he)⟩
  · rintro ⟨h1, h2⟩ e he
    exact (List.mem_append.mp he).elim (h1 e) (h2 e)

theorem Answers.congr {v : Value} {es : List Entry} {p q : Prop} (h : Answers v es p)
    (hpq : p ↔ q) : Answers v es q := ⟨h.1, h.2.trans hpq⟩

theorem argsMatch_cons {p : Can.Pattern} {ps : List Can.Pattern} {w : Value} {ws : List Value} :
    Can.Pattern.ArgsMatch (p :: ps) (w :: ws) ↔ p.Matches w ∧ Can.Pattern.ArgsMatch ps ws := by
  rw [Can.Pattern.ArgsMatch]
  constructor
  · rintro ⟨w', ws', heq, hw, hws⟩
    obtain ⟨rfl, rfl⟩ := List.cons.inj heq
    exact ⟨hw, hws⟩
  · rintro ⟨hw, hws⟩
    exact ⟨w, ws, rfl, hw, hws⟩

/-- Matching with a constructor that the value is built with. -/
theorem exists_args_iff {name : String} {ps : List Can.Pattern} {ws : List Value} :
    (∃ vs, Value.ctor name ws = .ctor name vs ∧ Can.Pattern.ArgsMatch ps vs)
      ↔ Can.Pattern.ArgsMatch ps ws := by
  constructor
  · rintro ⟨vs, heq, h⟩
    obtain ⟨-, rfl⟩ := Value.ctor.inj heq
    exact h
  · exact fun h => ⟨ws, rfl, h⟩

section
variable {Γ : Universe}

/-- A value of a type with one constructor is built with it. -/
theorem value_of_single {tp : Γ.Ty} {w : Value} {name : String} {tys : List Γ.Ty}
    {s : Shape Γ.Ty} (hs : Γ.shape tp = s) (hs' : s ≠ .int ∧ s ≠ .chr ∧ s ≠ .str ∧ s ≠ .other)
    (halts : altsOf Γ.shape tp = [(name, tys)]) (hw : HasType Γ.shape w tp) :
    ∃ ws, w = .ctor name ws ∧ HaveTypes Γ.shape ws tys := by
  subst hs
  cases w with
  | ctor name' ws =>
      rw [HasType, halts] at hw
      obtain ⟨tys', hmem, hws⟩ := hw
      obtain ⟨rfl, rfl⟩ := Prod.mk.inj (List.mem_singleton.mp hmem)
      exact ⟨ws, rfl, hws⟩
  | int n => rw [HasType] at hw; exact absurd hw hs'.1
  | chr key => rw [HasType] at hw; exact absurd hw hs'.2.1
  | str key => rw [HasType] at hw; exact absurd hw hs'.2.2.1
  | other id => rw [HasType] at hw; exact absurd hw hs'.2.2.2

mutual

/-- The entries of a pattern hold of the values it matches. -/
theorem holds_entriesOf {v w : Value} {path : Path} {p : Can.Pattern} {tp : Γ.Ty}
    (hget : path.get v = some w) (hw : HasType Γ.shape w tp) (hp : p.WellTyped Γ tp) :
    Answers v (entriesOf path p) (p.Matches w) := by
  cases p with
  | PAnything => rw [entriesOf, flatten, Can.Pattern.Matches]; exact answers_one hget Iff.rfl
  | PVar name => rw [entriesOf, flatten, Can.Pattern.Matches]; exact answers_one hget Iff.rfl
  | PRecord fields => rw [entriesOf, flatten, Can.Pattern.Matches]; exact answers_one hget Iff.rfl
  | PUnit =>
      rw [Can.Pattern.WellTyped] at hp
      obtain ⟨ws, rfl, hws⟩ := value_of_single hp (by simp)
        (show altsOf Γ.shape tp = [(unitName, [])] by rw [altsOf, hp]) hw
      obtain rfl := List.length_eq_zero_iff.mp (haveTypes_length hws)
      rw [entriesOf, flatten, Can.Pattern.Matches]
      exact answers_nil.congr ⟨fun _ => rfl, fun _ => trivial⟩
  | PAlias q name =>
      rw [Can.Pattern.WellTyped] at hp
      rw [entriesOf_alias, Can.Pattern.Matches]
      exact (answers_append (holds_entriesOf hget hw hp)
        (answers_one hget (Iff.rfl : FlatPattern.FAnything.Matches w ↔ True))).congr
          (and_iff_left trivial)
  | PTuple a b =>
      rw [Can.Pattern.WellTyped] at hp
      obtain ⟨ta, tb, hs, ha, hb⟩ := hp
      obtain ⟨ws, rfl, hws⟩ := value_of_single hs (by simp)
        (show altsOf Γ.shape tp = [(pairName, [ta, tb])] by rw [altsOf, hs]) hw
      obtain ⟨x, ws, rfl, hx, hws⟩ := haveTypes_of_cons hws
      obtain ⟨y, ws, rfl, hy, hws⟩ := haveTypes_of_cons hws
      obtain rfl := List.length_eq_zero_iff.mp (haveTypes_length hws)
      rw [entriesOf_pair, entriesOfAll_cons, entriesOfAll_cons, entriesOfAll, flattenAll,
        List.append_nil]
      refine (answers_append (holds_entriesOf (get_index hget rfl 0) hx ha)
        (holds_entriesOf (get_index hget rfl 1) hy hb)).congr ?_
      simp [Can.Pattern.Matches]
  | PTuple3 a b c =>
      rw [Can.Pattern.WellTyped] at hp
      obtain ⟨ta, tb, tc, hs, ha, hb, hc⟩ := hp
      obtain ⟨ws, rfl, hws⟩ := value_of_single hs (by simp)
        (show altsOf Γ.shape tp = [(tripleName, [ta, tb, tc])] by rw [altsOf, hs]) hw
      obtain ⟨x, ws, rfl, hx, hws⟩ := haveTypes_of_cons hws
      obtain ⟨y, ws, rfl, hy, hws⟩ := haveTypes_of_cons hws
      obtain ⟨z, ws, rfl, hz, hws⟩ := haveTypes_of_cons hws
      obtain rfl := List.length_eq_zero_iff.mp (haveTypes_length hws)
      rw [entriesOf_triple, entriesOfAll_cons, entriesOfAll_cons, entriesOfAll_cons, entriesOfAll,
        flattenAll, List.append_nil]
      refine (answers_append (holds_entriesOf (get_index hget rfl 0) hx ha)
        (answers_append (holds_entriesOf (get_index hget rfl 1) hy hb)
          (holds_entriesOf (get_index hget rfl 2) hz hc))).congr ?_
      simp [Can.Pattern.Matches]
  | PList ps =>
      cases ps with
      | nil =>
          rw [entriesOf, flatten]
          -- a list stays one entry: the tests of its parts come only after the test that it is not
          -- empty
          refine answers_one hget ?_
          rw [FlatPattern.Matches, Can.Pattern.Matches, Can.Pattern.ListMatches]
      | cons hd tl =>
          rw [entriesOf, flatten]
          refine answers_one hget ?_
          simp only [FlatPattern.Matches, Can.Pattern.Matches, Can.Pattern.ListMatches]
  | PCons hd tl =>
      rw [entriesOf, flatten]
      refine answers_one hget ?_
      rw [FlatPattern.Matches, Can.Pattern.Matches]
  | PBool union bool =>
      rw [entriesOf, flatten]
      refine answers_one hget ?_
      rw [FlatPattern.Matches, Can.Pattern.Matches]
  | PChr text =>
      rw [entriesOf, flatten]
      refine answers_one hget ?_
      rw [FlatPattern.Matches, Can.Pattern.Matches]
  | PStr text multiline =>
      rw [entriesOf, flatten]
      refine answers_one hget ?_
      rw [FlatPattern.Matches, Can.Pattern.Matches]
  | PInt n =>
      rw [entriesOf, flatten]
      refine answers_one hget ?_
      rw [FlatPattern.Matches, Can.Pattern.Matches]
  | PCtor home type_ union name index ps =>
      rw [Can.Pattern.WellTyped] at hp
      obtain ⟨args, c, tys, hs, hc, rfl, htys, hps⟩ := hp
      have hmem := alts_of_index hs hc htys
      by_cases hnum : union.numAlts = 1
      -- an only constructor needs no test: its arguments are flattened in its place
      · obtain ⟨ws, rfl, hws⟩ := value_of_single hs (by simp) (altsOf_single hs hnum hmem) hw
        rw [Can.Pattern.Matches, exists_args_iff]
        match ps, hps with
        | [arg], hps =>
            obtain ⟨ta, ts', rfl, harg, hnil⟩ := argsTyped_of_cons hps
            rw [Can.Pattern.ArgsTyped] at hnil
            subst hnil
            obtain ⟨x, ws, rfl, hx, hws⟩ := haveTypes_of_cons hws
            obtain rfl := List.length_eq_zero_iff.mp (haveTypes_length hws)
            -- with one argument the path unboxes, it does not index
            rw [entriesOf_unbox hnum]
            refine (holds_entriesOf (get_unbox hget) hx harg).congr ?_
            rw [argsMatch_cons, Can.Pattern.ArgsMatch]
            exact (and_iff_left rfl).symm
        | [], hps =>
            rw [Can.Pattern.ArgsTyped] at hps
            subst hps
            obtain rfl := List.length_eq_zero_iff.mp (haveTypes_length hws)
            rw [entriesOf_single hnum (by simp), entriesOfAll, flattenAll, Can.Pattern.ArgsMatch]
            exact answers_nil.congr ⟨fun _ => rfl, fun _ => trivial⟩
        | a :: b :: ps, hps =>
            rw [entriesOf_single hnum (by simp)]
            show Answers v _ (Can.Pattern.ArgsMatch _ (ws.drop 0))
            exact holds_entriesOfAll hget rfl hws hps
      · rw [entriesOf_ctor hnum]
        refine answers_one hget ?_
        rw [FlatPattern.Matches, Can.Pattern.Matches]

/-- The entries of the parts of a container hold when its fields match. -/
theorem holds_entriesOfAll {v : Value} {hint : ContainerHint} {path : Path} {index : Nat}
    {ps : List Can.Pattern} {name : String} {ws : List Value} {tys : List Γ.Ty}
    (hget : path.get v = some (.ctor name ws)) (hname : name = hint.ctorName)
    (hws : HaveTypes Γ.shape (ws.drop index) tys) (hps : Can.Pattern.ArgsTyped Γ ps tys) :
    Answers v (entriesOfAll hint path index ps) (Can.Pattern.ArgsMatch ps (ws.drop index)) := by
  cases ps with
  | nil =>
      rw [Can.Pattern.ArgsTyped] at hps
      subst hps
      rw [entriesOfAll, flattenAll, Can.Pattern.ArgsMatch]
      exact answers_nil.congr
        ⟨fun _ => List.length_eq_zero_iff.mp (haveTypes_length hws), fun _ => trivial⟩
  | cons p ps =>
      obtain ⟨ti, ts', rfl, hp, hps'⟩ := argsTyped_of_cons hps
      obtain ⟨x, ws', hdrop, hx, hws'⟩ := haveTypes_of_cons hws
      have hfield : (Path.Index index hint path).get v = some x := by
        rw [get_index hget hname, ← List.head?_drop, hdrop]
        rfl
      have hdrop' : ws.drop (index + 1) = ws' := by
        rw [← List.tail_drop, hdrop]
        rfl
      rw [entriesOfAll_cons, hdrop, ← hdrop']
      refine (answers_append (holds_entriesOf hfield hx hp)
        (holds_entriesOfAll hget hname (hdrop' ▸ hws') hps')).congr ?_
      rw [argsMatch_cons]

end

end

/-! ### How they lie -/

/-- An earlier and a later entry of a row: a position that needs a test has nothing else
    at it or inside it, but for a wildcard that comes later. -/
def Apart (e e' : Entry) : Prop :=
  (needsTests e.2 = true → e.1.Above e'.1 → e'.1 = e.1 ∧ needsTests e'.2 = false)
  ∧ (needsTests e'.2 = true → ¬e'.1.Above e.1)

/-- No two entries of a row get in each other's way. -/
def Laid (entries : List Entry) : Prop := entries.Pairwise Apart

/-- An entry that comes after a position leaves it and its inside alone. -/
def After (path : Path) (e : Entry) : Prop :=
  (path.Above e.1 → e.1 = path ∧ needsTests e.2 = false)
  ∧ (needsTests e.2 = true → ¬e.1.Above path)

/-- An entry that comes before a position leaves it and its inside alone. -/
def Before (e : Entry) (path : Path) : Prop :=
  (needsTests e.2 = true → ¬e.1.Above path) ∧ ¬path.Above e.1

/-- An entry inside a position lies apart from one that comes after it. -/
theorem apart_of_after {path : Path} {e e' : Entry} (he : path.Above e.1) (h : After path e') :
    Apart e e' := by
  refine ⟨fun _ habove => ?_, fun hneeds habove => ?_⟩
  · obtain ⟨heq, hany⟩ := h.1 (he.trans habove)
    rw [heq] at habove ⊢
    exact ⟨he.antisymm habove, hany⟩
  · rcases habove.total he with hab | hab
    · exact h.2 hneeds hab
    · rw [(h.1 hab).2] at hneeds
      cases hneeds

/-- An entry inside a position lies apart from one that comes before it. -/
theorem apart_of_before {path : Path} {e e' : Entry} (he' : path.Above e'.1)
    (h : Before e path) : Apart e e' := by
  refine ⟨fun hneeds habove => ?_, fun _ habove => h.2 (he'.trans habove)⟩
  rcases habove.total he' with hab | hab
  · exact absurd hab (h.1 hneeds)
  · exact absurd hab h.2

/-- An entry that leaves a position alone leaves what is inside it alone. -/
theorem After.inside {path q : Path} {e : Entry} (hq : path.Above q) (hne : ¬q.Above path)
    (h : After path e) : After q e := by
  refine ⟨fun habove => ?_, fun hneeds habove => ?_⟩
  · rw [(h.1 (hq.trans habove)).1] at habove
    exact absurd habove hne
  · rcases habove.total hq with hab | hab
    · exact h.2 hneeds hab
    · rw [(h.1 hab).2] at hneeds
      cases hneeds

/-- Entries at or inside a position that lie apart. -/
def Fits (path : Path) (entries : List Entry) : Prop :=
  Laid entries ∧ ∀ e ∈ entries, path.Above e.1

theorem fits_one (path : Path) (pattern : FlatPattern) : Fits path [(path, pattern)] :=
  ⟨List.pairwise_singleton _ _, fun e he => by rw [List.mem_singleton.mp he]; exact .refl _⟩

theorem fits_nil (path : Path) : Fits path [] :=
  ⟨List.Pairwise.nil, fun _ he => absurd he List.not_mem_nil⟩

/-- Entries that fit a position fit every position it lies inside. -/
theorem Fits.outside {path q : Path} {entries : List Entry} (h : Fits q entries)
    (hq : path.Above q) : Fits path entries := ⟨h.1, fun e he => hq.trans (h.2 e he)⟩

/-- Entries inside the fields of a container, from `index` on, that lie apart. -/
def FitsFrom (hint : ContainerHint) (path : Path) (index : Nat) (entries : List Entry) : Prop :=
  Laid entries ∧ ∀ e ∈ entries, ∃ i, index ≤ i ∧ (Path.Index i hint path).Above e.1

theorem fitsFrom_nil (hint : ContainerHint) (path : Path) (index : Nat) :
    FitsFrom hint path index [] := ⟨List.Pairwise.nil, fun _ he => absurd he List.not_mem_nil⟩

/-- The entries of one field and of those after it lie apart. -/
theorem fitsFrom_cons {hint : ContainerHint} {path : Path} {index : Nat} {es fs : List Entry}
    (he : Fits (.Index index hint path) es) (hf : FitsFrom hint path (index + 1) fs) :
    FitsFrom hint path index (es ++ fs) := by
  refine ⟨List.pairwise_append.mpr ⟨he.1, hf.1, ?_⟩, ?_⟩
  · intro e hemem e' he'mem
    obtain ⟨j, hj, habove⟩ := hf.2 e' he'mem
    refine apart_of_after (he.2 e hemem) ⟨fun h => ?_, fun _ h => ?_⟩
    · exact absurd (Path.index_disjoint (Nat.ne_of_lt hj) h habove) id
    · exact Path.index_disjoint (Nat.ne_of_lt hj) (Path.Above.refl _) (habove.trans h)
  · intro e hmem
    rcases List.mem_append.mp hmem with hmem | hmem
    · exact ⟨index, Nat.le_refl _, he.2 e hmem⟩
    · obtain ⟨j, hj, habove⟩ := hf.2 e hmem
      exact ⟨j, Nat.le_of_succ_le hj, habove⟩

/-- Entries that fit a container's fields fit the container. -/
theorem FitsFrom.fits {hint : ContainerHint} {path : Path} {index : Nat} {es : List Entry}
    (h : FitsFrom hint path index es) : Fits path es := by
  refine ⟨h.1, fun e he => ?_⟩
  obtain ⟨i, -, habove⟩ := h.2 e he
  exact (Path.above_index i hint path).trans habove

mutual

/-- The entries of a pattern lie apart, at its position or inside. -/
theorem entriesOf_fits (path : Path) (p : Can.Pattern) : Fits path (entriesOf path p) := by
  cases p with
  | PAlias q name =>
      have ih := entriesOf_fits path q
      rw [entriesOf_alias]
      refine ⟨List.pairwise_append.mpr ⟨ih.1, List.pairwise_singleton _ _, ?_⟩, ?_⟩
      · intro e he e' he'
        rw [List.mem_singleton.mp he']
        exact apart_of_after (ih.2 e he) ⟨fun _ => ⟨rfl, rfl⟩, fun h => by cases h⟩
      · intro e he
        rcases List.mem_append.mp he with he | he
        · exact ih.2 e he
        · rw [List.mem_singleton.mp he]
          exact .refl _
  | PTuple a b =>
      rw [entriesOf_pair, entriesOfAll_cons, entriesOfAll_cons]
      exact (fitsFrom_cons (entriesOf_fits _ a)
        (fitsFrom_cons (entriesOf_fits _ b) (fitsFrom_nil _ _ _))).fits
  | PTuple3 a b c =>
      rw [entriesOf_triple, entriesOfAll_cons, entriesOfAll_cons, entriesOfAll_cons]
      exact (fitsFrom_cons (entriesOf_fits _ a) (fitsFrom_cons (entriesOf_fits _ b)
        (fitsFrom_cons (entriesOf_fits _ c) (fitsFrom_nil _ _ _)))).fits
  | PCtor home type_ union name index ps =>
      -- what is flattened lies at the positions inside the constructor
      by_cases hnum : union.numAlts = 1
      · match ps with
        | [arg] =>
            rw [entriesOf_unbox hnum]
            exact (entriesOf_fits (.Unbox path) arg).outside (Path.above_unbox path)
        | [] =>
            rw [entriesOf_single hnum (by simp), entriesOfAll, flattenAll]
            exact fits_nil path
        | a :: b :: ps =>
            rw [entriesOf_single hnum (by simp)]
            exact (entriesOfAll_fits _ path 0 (a :: b :: ps)).fits
      · rw [entriesOf_ctor hnum]
        exact fits_one path _
  | PUnit => rw [entriesOf, flatten]; exact fits_nil path
  | PList ps => cases ps <;> rw [entriesOf, flatten] <;> exact fits_one path _
  | PAnything => rw [entriesOf, flatten]; exact fits_one path _
  | PVar name => rw [entriesOf, flatten]; exact fits_one path _
  | PRecord fields => rw [entriesOf, flatten]; exact fits_one path _
  | PCons hd tl => rw [entriesOf, flatten]; exact fits_one path _
  | PBool union bool => rw [entriesOf, flatten]; exact fits_one path _
  | PChr text => rw [entriesOf, flatten]; exact fits_one path _
  | PStr text multiline => rw [entriesOf, flatten]; exact fits_one path _
  | PInt n => rw [entriesOf, flatten]; exact fits_one path _

/-- The entries of a container's parts fit its fields. -/
theorem entriesOfAll_fits (hint : ContainerHint) (path : Path) (index : Nat)
    (ps : List Can.Pattern) : FitsFrom hint path index (entriesOfAll hint path index ps) := by
  cases ps with
  | nil => rw [entriesOfAll, flattenAll]; exact fitsFrom_nil hint path index
  | cons p ps =>
      rw [entriesOfAll_cons]
      exact fitsFrom_cons (entriesOf_fits _ p) (entriesOfAll_fits hint path (index + 1) ps)

end

/-! ### How many tests they call for -/

/-- The number of tests that a flattened pattern can call for. -/
def FlatPattern.weight : FlatPattern → Nat
  | .FAnything => 0
  | .FCtor _ _ _ _ _ args => 1 + argsWeight args
  | .FNil => 1
  | .FCons hd tl => 1 + DecisionTree.weight hd + DecisionTree.weight tl
  | .FInt _ => 1
  | .FChr _ => 1
  | .FStr _ => 1
  | .FBool _ => 1

/-- The number of tests that the entries can call for. -/
def testsIn (entries : List Entry) : Nat := (entries.map fun e => e.2.weight).sum

/-- The tests of two lists of entries add up. -/
theorem testsIn_append (as bs : List Entry) : testsIn (as ++ bs) = testsIn as + testsIn bs := by
  rw [testsIn, List.map_append, List.sum_append]
  rfl

theorem testsIn_one (path : Path) (pattern : FlatPattern) :
    testsIn [(path, pattern)] = pattern.weight := by
  rw [testsIn, List.map_singleton, List.sum_singleton]

theorem testsIn_nil : testsIn [] = 0 := rfl

mutual

/-- The entries of a pattern call for no more tests than the pattern has. -/
theorem testsIn_entriesOf (path : Path) (p : Can.Pattern) :
    testsIn (entriesOf path p) ≤ weight p := by
  cases p with
  | PAlias q name =>
      have ih := testsIn_entriesOf path q
      rw [entriesOf_alias, testsIn_append, testsIn_one, weight]
      exact ih
  | PTuple a b =>
      rw [entriesOf_pair, entriesOfAll_cons, entriesOfAll_cons, entriesOfAll, flattenAll,
        testsIn_append, testsIn_append, testsIn_nil, weight]
      exact Nat.add_le_add (testsIn_entriesOf _ a) (testsIn_entriesOf _ b)
  | PTuple3 a b c =>
      have ha := testsIn_entriesOf (.Index 0 .HintTuple3 path) a
      have hb := testsIn_entriesOf (.Index (0 + 1) .HintTuple3 path) b
      have hc := testsIn_entriesOf (.Index (0 + 1 + 1) .HintTuple3 path) c
      rw [entriesOf_triple, entriesOfAll_cons, entriesOfAll_cons, entriesOfAll_cons, entriesOfAll,
        flattenAll, testsIn_append, testsIn_append, testsIn_append, testsIn_nil, weight]
      omega
  | PCtor home type_ union name index ps =>
      rw [weight]
      -- a flattened constructor counts its arguments only
      by_cases hnum : union.numAlts = 1
      · match ps with
        | [arg] =>
            have := testsIn_entriesOf (.Unbox path) arg
            rw [entriesOf_unbox hnum, argsWeight, argsWeight]
            omega
        | [] =>
            rw [entriesOf_single hnum (by simp), entriesOfAll, flattenAll, testsIn_nil]
            exact Nat.zero_le _
        | a :: b :: ps =>
            have := testsIn_entriesOfAll (.HintCustom name) path 0 (a :: b :: ps)
            rw [entriesOf_single hnum (by simp)]
            omega
      · rw [entriesOf_ctor hnum, testsIn_one, FlatPattern.weight]
  | PUnit => rw [entriesOf, flatten, testsIn_nil]; exact Nat.zero_le _
  | PList ps =>
      cases ps with
      | nil => rw [entriesOf, flatten, testsIn_one, FlatPattern.weight, weight, entriesWeight]
      | cons hd tl =>
          rw [entriesOf, flatten, testsIn_one, FlatPattern.weight]
          simp only [weight, entriesWeight]
          omega
  | PAnything => rw [entriesOf, flatten, testsIn_one, FlatPattern.weight, weight]
  | PVar name => rw [entriesOf, flatten, testsIn_one, FlatPattern.weight, weight]
  | PRecord fields => rw [entriesOf, flatten, testsIn_one, FlatPattern.weight, weight]
  | PCons hd tl => rw [entriesOf, flatten, testsIn_one, FlatPattern.weight, weight]
  | PBool union bool => rw [entriesOf, flatten, testsIn_one, FlatPattern.weight, weight]
  | PChr text => rw [entriesOf, flatten, testsIn_one, FlatPattern.weight, weight]
  | PStr text multiline => rw [entriesOf, flatten, testsIn_one, FlatPattern.weight, weight]
  | PInt n => rw [entriesOf, flatten, testsIn_one, FlatPattern.weight, weight]

/-- The same for the parts of a container. -/
theorem testsIn_entriesOfAll (hint : ContainerHint) (path : Path) (index : Nat)
    (ps : List Can.Pattern) : testsIn (entriesOfAll hint path index ps) ≤ argsWeight ps := by
  cases ps with
  | nil => rw [entriesOfAll, flattenAll, testsIn_nil]; exact Nat.zero_le _
  | cons p ps =>
      rw [entriesOfAll_cons, testsIn_append, argsWeight]
      exact Nat.add_le_add (testsIn_entriesOf _ p) (testsIn_entriesOfAll hint path (index + 1) ps)

end

end DecisionTree

import EcoCompiler.SolverSearch

/-! # Versions given without going back

    What the registry and the constraints make of a search that never goes back, without
    its goals: a list of versions given, and what it leaves to be met.

    * `Index.demands` — the constraints that a package has still to meet;
    * `Index.Gives` — the version that a package is given next;
    * `Index.Represents` — the goals that stand for versions given;
    * `Index.greedy_of_leads`, `Index.leads_of_greedy` — the search gives these versions. -/

/-! ## Intersections -/

namespace Constraint

/-- A constraint narrowed by others, one after the other. -/
def narrow (c : Constraint) : List Constraint → Option Constraint
  | [] => some c
  | d :: rest =>
    match c.intersect d with
    | some both => narrow both rest
    | none => none

/-- The intersection of constraints, if there are some and none excludes those before it. -/
def meet : List Constraint → Option Constraint
  | [] => none
  | c :: rest => narrow c rest

theorem narrow_append (c : Constraint) (cs : List Constraint) (d : Constraint) :
    narrow c (cs ++ [d]) = (narrow c cs).bind fun both => both.intersect d := by
  induction cs generalizing c with
  | nil =>
    show narrow c [d] = c.intersect d
    rw [narrow]
    cases c.intersect d <;> rfl
  | cons e cs ih =>
    rw [List.cons_append, narrow, narrow]
    cases c.intersect e with
    | none => rfl
    | some both => exact ih both

/-- One more constraint. -/
theorem meet_append {cs : List Constraint} (h : cs ≠ []) (d : Constraint) :
    meet (cs ++ [d]) = (meet cs).bind fun both => both.intersect d := by
  cases cs with
  | nil => exact absurd rfl h
  | cons c cs => exact narrow_append c cs d

theorem satisfies_narrow {c both : Constraint} {cs : List Constraint} (h : narrow c cs = some both)
    (v : Version) :
    both.satisfies v = true ↔ c.satisfies v = true ∧ ∀ d ∈ cs, d.satisfies v = true := by
  induction cs generalizing c with
  | nil =>
    cases h
    simp
  | cons d cs ih =>
    rw [narrow] at h
    cases hi : c.intersect d with
    | none =>
      rw [hi] at h
      cases h
    | some mid =>
      rw [hi] at h
      rw [ih h, satisfies_intersect hi v, List.forall_mem_cons, and_assoc]

/-- A version satisfies the intersection exactly when it satisfies every constraint. -/
theorem satisfies_meet {both : Constraint} {cs : List Constraint} (h : meet cs = some both)
    (v : Version) : both.satisfies v = true ↔ ∀ c ∈ cs, c.satisfies v = true := by
  cases cs with
  | nil => cases h
  | cons c cs => rw [satisfies_narrow h v, List.forall_mem_cons]

theorem narrow_ne_none {c : Constraint} {cs : List Constraint} {v : Version}
    (hc : c.satisfies v = true) (hcs : ∀ d ∈ cs, d.satisfies v = true) : narrow c cs ≠ none := by
  induction cs generalizing c with
  | nil => exact Option.some_ne_none c
  | cons d cs ih =>
    obtain ⟨hd, hrest⟩ := List.forall_mem_cons.mp hcs
    rw [narrow]
    cases hi : c.intersect d with
    | none => exact (intersect_eq_none hi v hc hd).elim
    | some both => exact ih ((satisfies_intersect hi v).mpr ⟨hc, hd⟩) hrest

/-- Constraints that one version satisfies have an intersection. -/
theorem meet_ne_none {cs : List Constraint} {v : Version} (h : cs ≠ [])
    (hcs : ∀ c ∈ cs, c.satisfies v = true) : meet cs ≠ none := by
  cases cs with
  | nil => exact absurd rfl h
  | cons c cs =>
    obtain ⟨hc, hrest⟩ := List.forall_mem_cons.mp hcs
    exact narrow_ne_none hc hrest

end Constraint

namespace Solver

variable {Name : Type} [LinearOrder Name]

/-! ## Versions given -/

/-- Packages with the versions given to them, the last one first. -/
abbrev Picks (Name : Type) := List (Name × Version)

/-- The version given last to a package. -/
def given : Picks Name → Name → Option Version
  | [], _ => none
  | (name, version) :: before, other => if other = name then some version else given before other

/-- A package is given a version a second time. -/
def Twice (picks : Picks Name) (name : Name) : Prop := 1 < (picks.map Prod.fst).count name

namespace Index

variable (index : Index Name) (asked : Dict Name Constraint)

/-- The constraints that a package has still to meet: what is asked of it, and what the versions
    given while it had none declare of it. -/
def demands : Picks Name → Name → List Constraint
  | [], other => (asked.get other).toList
  | (name, version) :: before, other =>
    (if other = name then [] else demands before other)
      ++ (if given before other = none then ((index.elmJson name version).deps.get other).toList
          else [])

/-- What `addVersion` refuses: a version whose range of Elm versions is not good, or that has a
    dependency which excludes the version given to a package, or leaves nothing of what the
    package has still to meet. -/
inductive Refused (picks : Picks Name) (name : Name) (version : Version) : Prop where
  | unsupported (h : (index.elmJson name version).elm.goodElm = false)
  | excludes (dep : Name) (c : Constraint) (v : Version)
      (declared : (index.elmJson name version).deps.get dep = some c)
      (has : given picks dep = some v) (h : c.satisfies v = false)
  | narrows (dep : Name) (c : Constraint)
      (declared : (index.elmJson name version).deps.get dep = some c)
      (has : given picks dep = none) (other : dep ≠ name)
      (h : Constraint.meet (index.demands asked picks dep ++ [c]) = none)

/-- The package that sorts first of those that have something to meet. -/
def First (picks : Picks Name) (name : Name) : Prop :=
  index.demands asked picks name ≠ [] ∧ ∀ other < name, index.demands asked picks other = []

/-- The versions offered of a package that meet what it has to, as the registry orders them. -/
def fitting (picks : Picks Name) (name : Name) : List Version :=
  (index.offered name).filter fun v => (index.demands asked picks name).all fun c => c.satisfies v

/-- The first package is given its first fitting version that is not refused; `rest` are those
    after it. -/
def Gives (picks : Picks Name) (name : Name) (version : Version) (rest : List Version) : Prop :=
  index.First asked picks name
    ∧ ∃ refused, index.fitting asked picks name = refused ++ version :: rest
      ∧ (∀ v ∈ refused, index.Refused asked picks name v)
      ∧ ¬ index.Refused asked picks name version

/-- Nothing is left to meet. -/
def Finished (picks : Picks Name) : Prop := ∀ name, index.demands asked picks name = []

/-- A constraint that cannot be merged in. -/
def Clashes (solved : Dict Name (Details Name)) (u : Dict Name Constraint)
    (named : Name × Constraint) : Prop :=
  (∃ d, solved.get named.1 = some d ∧ named.2.satisfies d.version = false)
    ∨ (solved.get named.1 = none
      ∧ ∃ old, u.get named.1 = some old ∧ old.intersect named.2 = none)

/-- What a package has to meet with one more constraint. -/
def joined (old : Option Constraint) (c : Constraint) : Option Constraint :=
  match old with
  | none => some c
  | some old => old.intersect c

theorem joined_meet {cs : List Constraint} (h : cs ≠ [] → Constraint.meet cs ≠ none)
    (c : Constraint) : joined (Constraint.meet cs) c = Constraint.meet (cs ++ [c]) := by
  by_cases hcs : cs = []
  · subst hcs
    rfl
  · rw [Constraint.meet_append hcs]
    cases hm : Constraint.meet cs with
    | none => exact absurd hm (h hcs)
    | some both => rfl

theorem merge_eq_none_iff {solved : Dict Name (Details Name)} {u : Dict Name Constraint}
    {named : Name × Constraint} : merge solved u named = none ↔ Clashes solved u named := by
  obtain ⟨name, c⟩ := named
  rw [merge, Clashes]
  dsimp only
  cases hs : solved.get name with
  | some d =>
    dsimp only
    cases hsat : c.satisfies d.version <;> simp [hsat]
  | none =>
    dsimp only
    cases hu : u.get name with
    | none => simp
    | some old =>
      dsimp only
      cases hi : old.intersect c with
      | none => simp [hi]
      | some merged =>
        dsimp only
        split <;> simp [hi]

/-- Merging a constraint in changes the entry of its package, unless that has a version. -/
theorem merge_get {solved : Dict Name (Details Name)} {u u' : Dict Name Constraint} {name : Name}
    {c : Constraint} (h : merge solved u (name, c) = some u') (k : Name) :
    u'.get k = if k = name ∧ solved.get name = none then joined (u.get name) c else u.get k := by
  rw [merge] at h
  dsimp only at h
  cases hs : solved.get name with
  | some d =>
    rw [hs] at h
    dsimp only at h
    split at h
    · cases h
      rw [if_neg (fun h => by cases h.2)]
    · cases h
  | none =>
    rw [hs] at h
    dsimp only at h
    cases hu : u.get name with
    | none =>
      rw [hu] at h
      cases h
      rw [Dict.get_insert]
      simp only [and_true]
      rfl
    | some old =>
      rw [hu] at h
      dsimp only at h
      cases hi : old.intersect c with
      | none =>
        rw [hi] at h
        cases h
      | some merged =>
        rw [hi] at h
        dsimp only at h
        simp only [and_true, joined, hi]
        split at h
        · next heq =>
          cases h
          split
          · next hk => rw [hk, hu, heq]
          · rfl
        · cases h
          exact Dict.get_insert ..

theorem Clashes.congr {solved : Dict Name (Details Name)} {u u' : Dict Name Constraint}
    {named : Name × Constraint} (h : u'.get named.1 = u.get named.1) :
    Clashes solved u' named ↔ Clashes solved u named := by
  rw [Clashes, Clashes, h]

/-- A list with one constraint a package can be merged in when none of them clashes. -/
theorem mergeAll_eq_none_iff {solved : Dict Name (Details Name)} {u : Dict Name Constraint}
    {l : List (Name × Constraint)} (hl : l.Pairwise fun a b => a.1 < b.1) :
    mergeAll solved u l = none ↔ ∃ named ∈ l, Clashes solved u named := by
  induction l generalizing u with
  | nil => simp [mergeAll]
  | cons named rest ih =>
    obtain ⟨hfirst, hrest⟩ := List.pairwise_cons.mp hl
    rw [mergeAll, List.exists_mem_cons_iff]
    cases hm : merge solved u named with
    | none => simp [merge_eq_none_iff.mp hm]
    | some mid =>
      have hnot : ¬ Clashes solved u named := fun h => by
        rw [merge_eq_none_iff.mpr h] at hm
        cases hm
      dsimp only
      rw [ih hrest, or_iff_right hnot]
      refine exists_congr fun other => and_congr_right fun hmem => Clashes.congr ?_
      rw [merge_get hm, if_neg fun h => (hfirst other hmem).ne' h.1]

/-- What is pending after a list with one constraint a package is merged in. -/
theorem mergeAll_get {solved : Dict Name (Details Name)} {u u' : Dict Name Constraint}
    {l : List (Name × Constraint)} (hl : l.Pairwise fun a b => a.1 < b.1)
    (h : mergeAll solved u l = some u') :
    (∀ k, (∀ c, (k, c) ∉ l) → u'.get k = u.get k) ∧
      ∀ k c, (k, c) ∈ l →
        u'.get k = if solved.get k = none then joined (u.get k) c else u.get k := by
  induction l generalizing u with
  | nil =>
    cases h
    exact ⟨fun _ _ => rfl, fun _ _ hmem => by cases hmem⟩
  | cons named rest ih =>
    obtain ⟨name, c⟩ := named
    obtain ⟨hfirst, hrest⟩ := List.pairwise_cons.mp hl
    rw [mergeAll] at h
    cases hm : merge solved u (name, c) with
    | none =>
      rw [hm] at h
      cases h
    | some mid =>
      rw [hm] at h
      obtain ⟨hother, hmem⟩ := ih hrest h
      have hmid : ∀ k, k ≠ name → mid.get k = u.get k := by
        intro k hk
        rw [merge_get hm, if_neg]
        exact fun h => hk h.1
      constructor
      · intro k hk
        have hne : k ≠ name := by
          rintro rfl
          exact hk c (List.mem_cons_self ..)
        rw [hother k fun c' hc' => hk c' (List.mem_cons_of_mem _ hc'), hmid k hne]
      · intro k c' hk
        rcases List.mem_cons.mp hk with heq | hk
        · cases heq
          rw [hother name fun c' hc' => lt_irrefl name (hfirst _ hc'), merge_get hm]
          simp only [true_and]
        · have hne : k ≠ name := (hfirst _ hk).ne'
          rw [hmem k c' hk, hmid k hne]

/-! ## Goals that stand for versions given -/

/-- The goals stand for versions given: the last version of each package is solved, and what a
    package has still to meet is pending as one constraint. -/
structure Represents (goals : Goals Name) (picks : Picks Name) : Prop where
  solved : ∀ k, goals.solved.get k = (given picks k).map fun v => ⟨v, (index.elmJson k v).deps⟩
  pending : ∀ k, goals.pending.get k = Constraint.meet (index.demands asked picks k)
  meets : ∀ k, index.demands asked picks k ≠ [] →
    Constraint.meet (index.demands asked picks k) ≠ none

/-- What the search starts from. -/
def start (asked : Dict Name Constraint) : Goals Name := ⟨asked, Dict.empty⟩

variable {index asked} {goals goals2 : Goals Name} {picks : Picks Name} {name : Name}
  {version : Version}

theorem Represents.pending_eq_none_iff (h : index.Represents asked goals picks) {k : Name} :
    goals.pending.get k = none ↔ index.demands asked picks k = [] := by
  rw [h.pending]
  constructor
  · intro hnone
    by_contra hne
    exact h.meets k hne hnone
  · intro hnil
    rw [hnil]
    rfl

theorem Represents.solved_eq_none_iff (h : index.Represents asked goals picks) {k : Name} :
    goals.solved.get k = none ↔ given picks k = none := by
  rw [h.solved, Option.map_eq_none_iff]

/-- The entry of a view has the least key. -/
theorem view_first {α : Type} {d rest : Dict Name α} {a : α}
    (h : dictMinViewWithKey d = some ((name, a), rest)) :
    ∀ other < name, d.get other = none := by
  intro other hlt
  rw [dictMinViewWithKey] at h
  cases hl : d.toList with
  | nil =>
    rw [hl] at h
    cases h
  | cons e es =>
    rw [hl] at h
    cases h
    have hincreasing : ((name, a) :: es).Pairwise fun a b => a.1 < b.1 := hl ▸ d.increasing
    rw [Dict.get_eq_none_iff, hl]
    intro v hmem
    rcases List.mem_cons.mp hmem with heq | hmem
    · exact hlt.ne (congrArg Prod.fst heq)
    · exact lt_asymm hlt ((List.pairwise_cons.mp hincreasing).1 _ hmem)

/-- The first pending package is the first that has something to meet. -/
theorem Represents.first (h : index.Represents asked goals picks) {c : Constraint}
    {other : Dict Name Constraint}
    (hview : dictMinViewWithKey goals.pending = some ((name, c), other)) :
    index.First asked picks name := by
  refine ⟨?_, fun k hk => h.pending_eq_none_iff.mp (view_first hview k hk)⟩
  intro hnil
  rw [← h.pending_eq_none_iff, (view_spec hview).1] at hnil
  cases hnil

theorem First.unique {name' : Name} (h : index.First asked picks name)
    (h' : index.First asked picks name') : name = name' := by
  rcases lt_trichotomy name name' with hlt | rfl | hlt
  · exact absurd (h'.2 name hlt) h.1
  · rfl
  · exact absurd (h.2 name' hlt) h'.1

/-- Where a package has something to meet, a first one is pending. -/
theorem Represents.view (h : index.Represents asked goals picks)
    (hfirst : index.First asked picks name) :
    ∃ c other, dictMinViewWithKey goals.pending = some ((name, c), other) := by
  cases hview : dictMinViewWithKey goals.pending with
  | none =>
    have hnone := Dict.get_of_toList_nil (view_eq_none_iff.mp hview) name
    exact absurd (h.pending_eq_none_iff.mp hnone) hfirst.1
  | some view =>
    obtain ⟨⟨name', c⟩, other⟩ := view
    obtain rfl := (h.first hview).unique hfirst
    exact ⟨c, other, rfl⟩

/-- The candidates of the first pending package are the versions that fit. -/
theorem Represents.candidates (h : index.Represents asked goals picks) {c : Constraint}
    (hc : goals.pending.get name = some c) :
    index.candidates name c = index.fitting asked picks name := by
  rw [h.pending] at hc
  refine List.filter_congr fun v _ => ?_
  rw [Bool.eq_iff_iff, Constraint.satisfies_meet hc v, List.all_eq_true]

section

variable {c : Constraint} {other : Dict Name Constraint}

/-- What is pending besides the first package. -/
theorem Represents.others (h : index.Represents asked goals picks)
    (hview : dictMinViewWithKey goals.pending = some ((name, c), other)) (k : Name) :
    other.get k
      = Constraint.meet (if k = name then [] else index.demands asked picks k) := by
  rw [(view_spec hview).2]
  split
  · rfl
  · exact h.pending k

/-- A dependency that cannot be merged in is one that the version is refused for. -/
theorem Represents.clashes_iff (h : index.Represents asked goals picks)
    (hview : dictMinViewWithKey goals.pending = some ((name, c), other)) :
    (∃ named ∈ (index.elmJson name version).deps.toList, Clashes goals.solved other named)
      ↔ ∃ dep c', (index.elmJson name version).deps.get dep = some c'
        ∧ ((∃ v, given picks dep = some v ∧ c'.satisfies v = false)
          ∨ (given picks dep = none ∧ dep ≠ name
            ∧ Constraint.meet (index.demands asked picks dep ++ [c']) = none)) := by
  have hone : ∀ dep c', Clashes goals.solved other (dep, c')
      ↔ ((∃ v, given picks dep = some v ∧ c'.satisfies v = false)
        ∨ (given picks dep = none ∧ dep ≠ name
          ∧ Constraint.meet (index.demands asked picks dep ++ [c']) = none)) := by
    intro dep c'
    refine or_congr ?_ (and_congr h.solved_eq_none_iff ?_)
    · rw [h.solved]
      cases given picks dep with
      | none => simp
      | some v => simp
    · rw [h.others hview]
      by_cases hdep : dep = name
      · simp [hdep, Constraint.meet]
      · rw [if_neg hdep, ← joined_meet (h.meets dep), and_iff_right hdep]
        cases Constraint.meet (index.demands asked picks dep) with
        | none => simp [joined]
        | some old => simp [joined]
  constructor
  · rintro ⟨⟨dep, c'⟩, hmem, hclash⟩
    exact ⟨dep, c', Dict.get_eq_some_iff.mpr hmem, (hone dep c').mp hclash⟩
  · rintro ⟨dep, c', hdep, hclash⟩
    exact ⟨(dep, c'), Dict.get_eq_some_iff.mp hdep, (hone dep c').mpr hclash⟩

/-- The goals after a version are none exactly when the version is refused. -/
theorem Represents.accept_eq_none_iff (h : index.Represents asked goals picks)
    (hview : dictMinViewWithKey goals.pending = some ((name, c), other)) :
    index.accept { goals with pending := other } name version = none
      ↔ index.Refused asked picks name version := by
  have hmerge : mergeAll goals.solved other (index.elmJson name version).deps.toList = none
      ↔ ∃ named ∈ (index.elmJson name version).deps.toList, Clashes goals.solved other named :=
    mergeAll_eq_none_iff (index.elmJson name version).deps.increasing
  rw [accept]
  dsimp only
  cases helm : (index.elmJson name version).elm.goodElm with
  | false => exact ⟨fun _ => .unsupported helm, fun _ => rfl⟩
  | true =>
    rw [if_pos rfl, Option.map_eq_none_iff]
    refine (hmerge.trans (h.clashes_iff hview)).trans ⟨?_, ?_⟩
    · rintro ⟨dep, c', hdep, ⟨v, hv, hsat⟩ | ⟨hnone, hne, hmeet⟩⟩
      · exact .excludes dep c' v hdep hv hsat
      · exact .narrows dep c' hdep hnone hne hmeet
    · intro hrefused
      cases hrefused with
      | unsupported h =>
        rw [helm] at h
        cases h
      | excludes dep c' v hdep hv hsat => exact ⟨dep, c', hdep, Or.inl ⟨v, hv, hsat⟩⟩
      | narrows dep c' hdep hnone hne hmeet =>
        exact ⟨dep, c', hdep, Or.inr ⟨hnone, hne, hmeet⟩⟩

/-- The goals after a version stand for it and the versions before it. -/
theorem Represents.accept (h : index.Represents asked goals picks)
    (hview : dictMinViewWithKey goals.pending = some ((name, c), other))
    (haccept : index.accept { goals with pending := other } name version = some goals2) :
    index.Represents asked goals2 ((name, version) :: picks) := by
  have hnot : ¬ index.Refused asked picks name version := by
    rw [← h.accept_eq_none_iff hview, haccept]
    exact Option.some_ne_none _
  rw [Index.accept] at haccept
  dsimp only at haccept
  split at haccept
  · obtain ⟨pending, hmerge, rfl⟩ := Option.map_eq_some_iff.mp haccept
    obtain ⟨hother, hdeps⟩ := mergeAll_get (index.elmJson name version).deps.increasing hmerge
    have hothers : ∀ k, (if k = name then [] else index.demands asked picks k) ≠ [] →
        Constraint.meet (if k = name then [] else index.demands asked picks k) ≠ none := by
      intro k hk
      by_cases hkn : k = name
      · rw [if_pos hkn] at hk
        exact absurd rfl hk
      · rw [if_neg hkn] at hk ⊢
        exact h.meets k hk
    -- what is pending of a package, as the dependencies have it
    have hpending : ∀ k, pending.get k
        = Constraint.meet (index.demands asked ((name, version) :: picks) k) := by
      intro k
      rw [demands]
      cases hdep : (index.elmJson name version).deps.get k with
      | none =>
        rw [hother k (Dict.get_eq_none_iff.mp hdep), h.others hview]
        simp
      | some c' =>
        rw [hdeps k c' (Dict.get_eq_some_iff.mp hdep), h.others hview, joined_meet (hothers k)]
        simp only [h.solved_eq_none_iff]
        split <;> simp
    refine ⟨?_, hpending, ?_⟩
    · intro k
      rw [Dict.get_insert, given]
      split
      · next hk => rw [hk]; rfl
      · exact h.solved k
    · intro k hk
      rw [demands] at hk ⊢
      cases hdep : (index.elmJson name version).deps.get k with
      | none =>
        simp only [hdep, Option.toList_none, ite_self, List.append_nil] at hk ⊢
        exact hothers k hk
      | some c' =>
        rw [hdep] at hk
        by_cases hgiven : given picks k = none
        · rw [if_pos hgiven, Option.toList_some]
          intro hmeet
          by_cases hkn : k = name
          · rw [if_pos hkn] at hmeet
            cases hmeet
          · rw [if_neg hkn] at hmeet
            exact hnot (.narrows k c' hdep hgiven hkn hmeet)
        · rw [if_neg hgiven, List.append_nil] at hk ⊢
          exact hothers k hk
  · cases haccept

end

/-! ## The search gives these versions -/

/-- A version given is a turn. -/
theorem Represents.next (h : index.Represents asked goals picks) {rest : List Version}
    (hgives : index.Gives asked picks name version rest) :
    ∃ goals2, index.next goals = some goals2
      ∧ index.Represents asked goals2 ((name, version) :: picks) := by
  obtain ⟨hfirst, refused, hfit, hrefused, hnot⟩ := hgives
  obtain ⟨c, other, hview⟩ := h.view hfirst
  rw [← h.candidates (view_spec hview).1] at hfit
  cases haccept : index.accept { goals with pending := other } name version with
  | none => exact absurd ((h.accept_eq_none_iff hview).mp haccept) hnot
  | some goals2 =>
    refine ⟨goals2, ?_, h.accept hview haccept⟩
    refine index.next_eq_some_iff.mpr ⟨name, version, c, other, hview, refused, rest, hfit, ?_,
      haccept⟩
    exact fun v hv => (h.accept_eq_none_iff hview).mpr (hrefused v hv)

end Index

end Solver

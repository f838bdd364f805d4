import EcoCompiler.Solver

/-! # The search without its state

    What a package may be, and what the search makes of it, over an `Index`: the versions
    offered of each package and the `elm.json` of each version.  A choice of versions is
    stated without the search; `Index.next` is one turn of it.

    * `Index.next_eq_some_iff`: a turn takes the first pending package at its first
      candidate that is not refused;
    * `Index.Takes.turn`: what one turn does to the goals;
    * `Index.leads_ends`: every search ends, solved or stuck. -/

namespace Solver

variable {Name : Type} [LinearOrder Name]

/-- The versions offered of each package, and the `elm.json` of each version; finitely many
    packages have versions. -/
structure Index (Name : Type) [LinearOrder Name] where
  offered : Name → List Version
  elmJson : Name → Version → Constraints Name
  known : Finset Name
  offered_known : ∀ name, offered name ≠ [] → name ∈ known

namespace Index

variable (index : Index Name)

/-! ## Choices of versions -/

/-- A choice of versions that satisfies what is asked and everything it depends on. -/
structure IsChoice (asked : Dict Name Constraint) (σ : Name → Option Version) : Prop where
  offered : ∀ name v, σ name = some v → v ∈ index.offered name
  asks : ∀ name c, asked.get name = some c → ∃ v, σ name = some v ∧ c.satisfies v = true
  needs : ∀ name v, σ name = some v → ∀ dep c, (index.elmJson name v).deps.get dep = some c →
    ∃ w, σ dep = some w ∧ c.satisfies w = true
  elm : ∀ name v, σ name = some v →
    ∃ e, Constraint.Supported e ∧ (index.elmJson name v).elm.satisfies e = true

/-- The versions of a solved set. -/
def solvedVersions (solved : Dict Name (Details Name)) (name : Name) : Option Version :=
  (solved.get name).map Details.version

/-- The pending constraints with one more, if it can be met. -/
def merge (solved : Dict Name (Details Name)) (unsolved : Dict Name Constraint)
    (named : Name × Constraint) : Option (Dict Name Constraint) :=
  match solved.get named.1 with
  | some details => if named.2.satisfies details.version then some unsolved else none
  | none =>
    match unsolved.get named.1 with
    | none => some (unsolved.insert named.1 named.2)
    | some old =>
      match old.intersect named.2 with
      | none => none
      | some merged => if old = merged then some unsolved else some (unsolved.insert named.1 merged)

/-- The pending constraints with those of a list, if all can be met. -/
def mergeAll (solved : Dict Name (Details Name)) :
    Dict Name Constraint → List (Name × Constraint) → Option (Dict Name Constraint)
  | unsolved, [] => some unsolved
  | unsolved, named :: rest =>
    match merge solved unsolved named with
    | none => none
    | some next => mergeAll solved next rest

/-- The goals after `name` is solved at `version`, unless the version is refused. -/
def accept (goals : Goals Name) (name : Name) (version : Version) : Option (Goals Name) :=
  let constraints := index.elmJson name version
  if constraints.elm.goodElm then
    (mergeAll goals.solved goals.pending constraints.deps.toList).map (fun pending =>
      { pending, solved := goals.solved.insert name ⟨version, constraints.deps⟩ })
  else none

/-- The versions offered that satisfy a constraint. -/
def candidates (name : Name) (constraint : Constraint) : List Version :=
  (index.offered name).filter constraint.satisfies

/-- One turn: the goals after the first candidate that is not refused. -/
def next (goals : Goals Name) : Option (Goals Name) :=
  match dictMinViewWithKey goals.pending with
  | none => none
  | some ((name, constraint), otherPending) =>
    (index.candidates name constraint).findSome?
      (index.accept { goals with pending := otherPending } name)

/-- The search, to `fuel` turns. -/
def search (fuel : Nat) (goals : Goals Name) : Option (Option (Dict Name (Details Name))) :=
  match fuel with
  | 0 => some none
  | fuel + 1 =>
    if goals.pending.toList = [] then some (some goals.solved)
    else
      match index.next goals with
      | none => none
      | some goals2 => search fuel goals2

/-- Nothing is pending. -/
def Done (goals : Goals Name) : Prop := goals.pending.toList = []

/-- The search comes from one set of goals to another. -/
def Leads : Goals Name → Goals Name → Prop :=
  Relation.ReflTransGen (fun goals goals2 => index.next goals = some goals2)

/-- `name` is the first pending package, and `version` its first candidate that is not
    refused. -/
def Takes (goals : Goals Name) (name : Name) (version : Version) (goals2 : Goals Name) : Prop :=
  ∃ constraint otherPending,
    dictMinViewWithKey goals.pending = some ((name, constraint), otherPending)
    ∧ ∃ refused rest, index.candidates name constraint = refused ++ version :: rest
      ∧ (∀ v ∈ refused, index.accept { goals with pending := otherPending } name v = none)
      ∧ index.accept { goals with pending := otherPending } name version = some goals2

theorem next_eq_some_iff {goals goals2 : Goals Name} :
    index.next goals = some goals2 ↔ ∃ name version, index.Takes goals name version goals2 := by
  rw [next]
  constructor
  · intro h
    split at h
    · cases h
    · next name constraint otherPending hview =>
      obtain ⟨refused, version, rest, hcand, haccept, hrefused⟩ :=
        List.findSome?_eq_some_iff.mp h
      exact ⟨name, version, constraint, otherPending, hview, refused, rest, hcand,
        hrefused, haccept⟩
  · rintro ⟨name, version, constraint, otherPending, hview, refused, rest, hcand, hrefused,
      haccept⟩
    rw [hview]
    exact List.findSome?_eq_some_iff.mpr ⟨refused, version, rest, hcand, haccept, hrefused⟩

/-! ## Views of the pending packages -/

theorem view_eq_none_iff {α : Type} {d : Dict Name α} :
    dictMinViewWithKey d = none ↔ d.toList = [] := by
  rw [dictMinViewWithKey]
  cases d.toList with
  | nil => simp
  | cons e es => simp

/-- The first entry is present, and the rest is the dictionary without it. -/
theorem view_spec {α : Type} {d rest : Dict Name α} {name : Name} {a : α}
    (h : dictMinViewWithKey d = some ((name, a), rest)) :
    d.get name = some a ∧ ∀ k, rest.get k = if k = name then none else d.get k := by
  rw [dictMinViewWithKey] at h
  cases hl : d.toList with
  | nil =>
    rw [hl] at h
    cases h
  | cons e es =>
    rw [hl] at h
    simp only [Option.some.injEq, Prod.mk.injEq] at h
    obtain ⟨rfl, rfl⟩ := h
    refine ⟨Dict.get_eq_some_iff.mpr ?_, Dict.get_fromList_tail hl⟩
    rw [hl]
    exact List.mem_cons_self ..

/-! ## What one turn does -/

/-- One constraint is met by no more versions than another. -/
def Implies (c c' : Constraint) : Prop := ∀ v, c.satisfies v = true → c'.satisfies v = true

theorem Implies.refl (c : Constraint) : Implies c c := fun _ h => h

theorem Implies.trans {a b c : Constraint} (h : Implies a b) (h' : Implies b c) :
    Implies a c := fun v hv => h' v (h v hv)

/-- Every pending constraint is kept or tightened. -/
def Tightens (u u' : Dict Name Constraint) : Prop :=
  ∀ name c, u.get name = some c → ∃ c', u'.get name = some c' ∧ Implies c' c

theorem Tightens.refl (u : Dict Name Constraint) : Tightens u u :=
  fun _ c h => ⟨c, h, Implies.refl c⟩

theorem Tightens.trans {u u' u'' : Dict Name Constraint} (h : Tightens u u')
    (h' : Tightens u' u'') : Tightens u u'' := by
  intro name c hc
  obtain ⟨c', hc', himp⟩ := h name c hc
  obtain ⟨c'', hc'', himp'⟩ := h' name c' hc'
  exact ⟨c'', hc'', himp'.trans himp⟩

/-- A constraint is met by the version solved, or it is pending. -/
def MetOrPending (solved : Dict Name (Details Name)) (pending : Dict Name Constraint)
    (name : Name) (c : Constraint) : Prop :=
  (∃ d, solved.get name = some d ∧ c.satisfies d.version = true)
    ∨ (solved.get name = none ∧ ∃ c', pending.get name = some c' ∧ Implies c' c)

theorem MetOrPending.tighten {solved : Dict Name (Details Name)} {u u' : Dict Name Constraint}
    {name : Name} {c : Constraint} (h : MetOrPending solved u name c) (ht : Tightens u u') :
    MetOrPending solved u' name c := by
  rcases h with h | ⟨hnone, c', hc', himp⟩
  · exact Or.inl h
  · obtain ⟨c'', hc'', himp'⟩ := ht name c' hc'
    exact Or.inr ⟨hnone, c'', hc'', himp'.trans himp⟩

/-- Merging a constraint in. -/
theorem merge_spec {solved : Dict Name (Details Name)} {u u' : Dict Name Constraint}
    {named : Name × Constraint} (h : merge solved u named = some u') :
    Tightens u u' ∧ MetOrPending solved u' named.1 named.2
      ∧ ∀ k, u'.get k ≠ none → u.get k ≠ none ∨ (solved.get k = none ∧ k = named.1) := by
  obtain ⟨name, c⟩ := named
  rw [merge] at h
  dsimp only at h ⊢
  cases hs : solved.get name with
  | some details =>
    rw [hs] at h
    dsimp only at h
    split at h
    · next hsat =>
      cases h
      exact ⟨Tightens.refl u, Or.inl ⟨details, hs, hsat⟩, fun k hk => Or.inl hk⟩
    · cases h
  | none =>
    -- an insertion at `name` introduces no other key
    have hkeys : ∀ c' k, (u.insert name c').get k ≠ none →
        u.get k ≠ none ∨ (solved.get k = none ∧ k = name) := by
      intro c' k hk
      by_cases hkn : k = name
      · exact Or.inr ⟨hkn ▸ hs, hkn⟩
      · rw [Dict.get_insert_of_ne _ hkn] at hk
        exact Or.inl hk
    rw [hs] at h
    dsimp only at h
    cases hu : u.get name with
    | none =>
      rw [hu] at h
      cases h
      refine ⟨?_, Or.inr ⟨hs, c, Dict.get_insert_self .., Implies.refl c⟩, hkeys c⟩
      intro k ck hk
      have hkn : k ≠ name := by
        rintro rfl
        rw [hu] at hk
        cases hk
      exact ⟨ck, by rw [Dict.get_insert_of_ne _ hkn, hk], Implies.refl ck⟩
    | some old =>
      rw [hu] at h
      dsimp only at h
      cases hi : old.intersect c with
      | none =>
        rw [hi] at h
        cases h
      | some merged =>
        rw [hi] at h
        dsimp only at h
        have hold : Implies merged old := fun v hv =>
          ((Constraint.satisfies_intersect hi v).mp hv).1
        have hnew : Implies merged c := fun v hv =>
          ((Constraint.satisfies_intersect hi v).mp hv).2
        split at h
        · next heq =>
          cases h
          exact ⟨Tightens.refl u, Or.inr ⟨hs, old, hu, heq ▸ hnew⟩, fun k hk => Or.inl hk⟩
        · cases h
          refine ⟨?_, Or.inr ⟨hs, merged, Dict.get_insert_self .., hnew⟩, hkeys merged⟩
          intro k ck hk
          by_cases hkn : k = name
          · rw [hkn, hu] at hk
            cases hk
            exact ⟨merged, by rw [hkn, Dict.get_insert_self], hold⟩
          · exact ⟨ck, by rw [Dict.get_insert_of_ne _ hkn, hk], Implies.refl ck⟩

/-- Merging a list of constraints in. -/
theorem mergeAll_spec {solved : Dict Name (Details Name)} {l : List (Name × Constraint)}
    {u u' : Dict Name Constraint} (h : mergeAll solved u l = some u') :
    Tightens u u' ∧ (∀ named ∈ l, MetOrPending solved u' named.1 named.2)
      ∧ ∀ k, u'.get k ≠ none →
        u.get k ≠ none ∨ (solved.get k = none ∧ ∃ c, (k, c) ∈ l) := by
  induction l generalizing u with
  | nil =>
    rw [mergeAll, Option.some_inj] at h
    rw [← h]
    exact ⟨Tightens.refl u, by simp, fun k hk => Or.inl hk⟩
  | cons named rest ih =>
    rw [mergeAll] at h
    cases hm : merge solved u named with
    | none =>
      rw [hm] at h
      cases h
    | some mid =>
      rw [hm] at h
      obtain ⟨ht, hmet, hkeys⟩ := merge_spec hm
      obtain ⟨ht', hmet', hkeys'⟩ := ih h
      refine ⟨ht.trans ht', ?_, ?_⟩
      · intro n hn
        rcases List.mem_cons.mp hn with rfl | hn
        · exact hmet.tighten ht'
        · exact hmet' n hn
      · intro k hk
        rcases hkeys' k hk with hk | ⟨hnone, c, hc⟩
        · rcases hkeys k hk with hk | ⟨hnone, rfl⟩
          · exact Or.inl hk
          · exact Or.inr ⟨hnone, named.2, List.mem_cons_self ..⟩
        · exact Or.inr ⟨hnone, c, List.mem_cons_of_mem _ hc⟩

/-- What one turn does: `name` is solved at `version`, and the dependencies of that version
    are met by what was solved before, or pending. -/
structure Turn (goals : Goals Name) (name : Name) (version : Version) (goals2 : Goals Name) :
    Prop where
  pending : ∃ c, goals.pending.get name = some c ∧ c.satisfies version = true
  offered : version ∈ index.offered name
  solved : ∀ k, goals2.solved.get k =
    if k = name then some ⟨version, (index.elmJson name version).deps⟩ else goals.solved.get k
  tightens : ∀ k c, k ≠ name → goals.pending.get k = some c →
    ∃ c', goals2.pending.get k = some c' ∧ Implies c' c
  fresh : ∀ k, goals2.pending.get k ≠ none →
    (k ≠ name ∧ goals.pending.get k ≠ none)
      ∨ (goals.solved.get k = none ∧ (index.elmJson name version).deps.get k ≠ none)
  met : ∀ k c, (index.elmJson name version).deps.get k = some c →
    MetOrPending goals.solved goals2.pending k c

variable {index}

/-- Any candidate of the first pending package that is accepted makes a turn. -/
theorem turn_of_accept {goals goals2 : Goals Name} {name : Name} {version : Version}
    {c : Constraint} {other : Dict Name Constraint}
    (hview : dictMinViewWithKey goals.pending = some ((name, c), other))
    (hmem : version ∈ index.candidates name c)
    (haccept : index.accept { goals with pending := other } name version = some goals2) :
    index.Turn goals name version goals2 := by
  obtain ⟨hname, hother⟩ := view_spec hview
  obtain ⟨hoffered, hsat⟩ := List.mem_filter.mp hmem
  rw [accept] at haccept
  dsimp only at haccept
  split at haccept
  · obtain ⟨pending, hmerge, rfl⟩ := Option.map_eq_some_iff.mp haccept
    obtain ⟨ht, hmet, hkeys⟩ := mergeAll_spec hmerge
    refine ⟨⟨c, hname, hsat⟩, hoffered, ?_, ?_, ?_, ?_⟩
    · intro k
      exact Dict.get_insert ..
    · intro k ck hk hget
      exact ht k ck (by rw [hother, if_neg hk, hget])
    · intro k hk
      rcases hkeys k hk with hk | ⟨hnone, ck, hck⟩
      · rw [hother] at hk
        by_cases hkn : k = name
        · rw [if_pos hkn] at hk
          exact absurd rfl hk
        · rw [if_neg hkn] at hk
          exact Or.inl ⟨hkn, hk⟩
      · refine Or.inr ⟨hnone, ?_⟩
        rw [Dict.get_eq_some_iff.mpr hck]
        exact Option.some_ne_none ck
    · intro k ck hk
      exact hmet (k, ck) (Dict.get_eq_some_iff.mp hk)
  · cases haccept

/-- What holds of any solved set. -/
def Offered (index : Index Name) (goals : Goals Name) : Prop :=
  ∀ name d, goals.solved.get name = some d →
    d.version ∈ index.offered name ∧ d.deps = (index.elmJson name d.version).deps

theorem Turn.offered_kept {goals goals2 : Goals Name} {name : Name} {version : Version}
    (h : index.Turn goals name version goals2) (ho : index.Offered goals) :
    index.Offered goals2 := by
  intro k d hk
  rw [h.solved] at hk
  split at hk
  · next heq =>
    cases hk
    exact ⟨heq ▸ h.offered, by rw [heq]⟩
  · exact ho k d hk

/-! ## Every search ends -/

/-- What is left: two turns for a package never solved, one for a package that is pending
    again. -/
def left (index : Index Name) (goals : Goals Name) : Nat :=
  2 * (index.known.filter (fun n => goals.solved.get n = none)).card
    + (index.known.filter
        (fun n => goals.solved.get n ≠ none ∧ goals.pending.get n ≠ none)).card

/-- A turn leaves less. -/
theorem Turn.left_lt {goals goals2 : Goals Name} {name : Name} {version : Version}
    (h : index.Turn goals name version goals2) : index.left goals2 < index.left goals := by
  obtain ⟨c, hpending, -⟩ := h.pending
  have hknown : name ∈ index.known := by
    refine index.offered_known name ?_
    intro hnil
    have := h.offered
    rw [hnil] at this
    cases this
  have hsolved : goals2.solved.get name ≠ none := by
    rw [h.solved, if_pos rfl]
    exact Option.some_ne_none _
  -- what was solved before is pending only if it was pending before, `name` apart
  have hold : ∀ k, goals.solved.get k ≠ none → goals2.pending.get k ≠ none →
      k ≠ name ∧ goals.pending.get k ≠ none := by
    intro k hk hk2
    rcases h.fresh k hk2 with hfresh | ⟨hnone, -⟩
    · exact hfresh
    · exact absurd hnone hk
  rw [left, left]
  by_cases hname : goals.solved.get name = none
  · -- the first turn of `name`
    have hun : (index.known.filter (fun n => goals2.solved.get n = none)).card + 1
        ≤ (index.known.filter (fun n => goals.solved.get n = none)).card := by
      rw [← Finset.card_insert_of_notMem (a := name) (by simp [hsolved])]
      refine Finset.card_le_card ?_
      intro k hk
      rcases Finset.mem_insert.mp hk with rfl | hk
      · exact Finset.mem_filter.mpr ⟨hknown, hname⟩
      · obtain ⟨hk, hnone⟩ := Finset.mem_filter.mp hk
        refine Finset.mem_filter.mpr ⟨hk, ?_⟩
        rw [h.solved] at hnone
        split at hnone
        · cases hnone
        · exact hnone
    have hagain : (index.known.filter
          (fun n => goals2.solved.get n ≠ none ∧ goals2.pending.get n ≠ none)).card
        ≤ (index.known.filter
          (fun n => goals.solved.get n ≠ none ∧ goals.pending.get n ≠ none)).card + 1 := by
      refine (Finset.card_le_card ?_).trans (Finset.card_insert_le name _)
      intro k hk
      obtain ⟨hk, hs, hp⟩ := Finset.mem_filter.mp hk
      by_cases hkn : k = name
      · exact Finset.mem_insert.mpr (Or.inl hkn)
      · rw [h.solved, if_neg hkn] at hs
        exact Finset.mem_insert_of_mem (Finset.mem_filter.mpr ⟨hk, hs, (hold k hs hp).2⟩)
    omega
  · -- the second one
    have hun : (index.known.filter (fun n => goals2.solved.get n = none)).card
        ≤ (index.known.filter (fun n => goals.solved.get n = none)).card := by
      refine Finset.card_le_card ?_
      intro k hk
      obtain ⟨hk, hnone⟩ := Finset.mem_filter.mp hk
      refine Finset.mem_filter.mpr ⟨hk, ?_⟩
      rw [h.solved] at hnone
      split at hnone
      · cases hnone
      · exact hnone
    have hagain : (index.known.filter
          (fun n => goals2.solved.get n ≠ none ∧ goals2.pending.get n ≠ none)).card + 1
        ≤ (index.known.filter
          (fun n => goals.solved.get n ≠ none ∧ goals.pending.get n ≠ none)).card := by
      rw [← Finset.card_insert_of_notMem (a := name)]
      · refine Finset.card_le_card ?_
        intro k hk
        rcases Finset.mem_insert.mp hk with rfl | hk
        · refine Finset.mem_filter.mpr ⟨hknown, hname, ?_⟩
          rw [hpending]
          exact Option.some_ne_none c
        · obtain ⟨hk, hs, hp⟩ := Finset.mem_filter.mp hk
          have hs' : goals.solved.get k ≠ none := by
            by_cases hkn : k = name
            · rw [hkn]
              exact hname
            · rwa [h.solved, if_neg hkn] at hs
          exact Finset.mem_filter.mpr ⟨hk, hs', (hold k hs' hp).2⟩
      · intro hmem
        exact (hold name hname (Finset.mem_filter.mp hmem).2.2).1 rfl
    omega

end Index

end Solver

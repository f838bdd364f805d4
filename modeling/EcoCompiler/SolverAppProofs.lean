import EcoCompiler.SolverRuns

/-! # The outline after a change

    `getTransitive` gives the packages that the solution's constraints lead to, and finds the
    constraints of each; so the four maps are the solution, sorted.

    * `getTransitive_spec` — the search with a growing visited set;
    * `AppOutline.Sorted` — what holds of the outline that is written;
    * `Writes` — what a run makes of its search;
    * `app_outline` — for both operations. -/

namespace Solver

variable {Name : Type} [LinearOrder Name]

/-! ## What `getTransitive` gives -/

/-- The packages of the solution that are not visited. -/
def unseen (new visited : Dict Name Version) : Finset Name :=
  (new.toList.map Prod.fst).toFinset.filter fun k => visited.get k = none

theorem mem_unseen {new visited : Dict Name Version} {k : Name} :
    k ∈ unseen new visited ↔ new.get k ≠ none ∧ visited.get k = none := by
  rw [unseen, Finset.mem_filter, List.mem_toFinset, List.mem_map]
  refine and_congr_left fun _ => ?_
  constructor
  · rintro ⟨e, he, rfl⟩
    rw [Dict.get_eq_some_iff.mpr he]
    exact Option.some_ne_none _
  · intro h
    obtain ⟨v, hv⟩ := Option.ne_none_iff_exists'.mp h
    exact ⟨(k, v), Dict.get_eq_some_iff.mp hv, rfl⟩

/-- No more names are unseen than the solution has. -/
theorem card_unseen_le (new visited : Dict Name Version) :
    (unseen new visited).card ≤ new.toList.length :=
  calc (unseen new visited).card ≤ (new.toList.map Prod.fst).toFinset.card :=
        Finset.card_filter_le _ _
    _ ≤ (new.toList.map Prod.fst).length := List.toFinset_card_le _
    _ = new.toList.length := List.length_map _

/-- What is visited before is visited after. -/
def Grows (visited visited' : Dict Name Version) : Prop :=
  ∀ k v, visited.get k = some v → visited'.get k = some v

/-- What has been seen stays seen. -/
theorem unseen_subset {new visited visited' : Dict Name Version} (h : Grows visited visited') :
    unseen new visited' ⊆ unseen new visited := by
  intro k hk
  obtain ⟨hnew, hnone⟩ := mem_unseen.mp hk
  refine mem_unseen.mpr ⟨hnew, ?_⟩
  by_contra hne
  obtain ⟨v, hv⟩ := Option.ne_none_iff_exists'.mp hne
  rw [h k v hv] at hnone
  cases hnone

/-- A package more leaves fewer unseen. -/
theorem card_unseen_lt {new visited visited' : Dict Name Version} (h : Grows visited visited')
    {k : Name} (hnew : new.get k ≠ none) (hk : visited.get k = none)
    (hk' : visited'.get k ≠ none) : (unseen new visited').card < (unseen new visited).card := by
  refine Finset.card_lt_card ⟨unseen_subset h, fun hsub => ?_⟩
  exact hk' (mem_unseen.mp (hsub (mem_unseen.mpr ⟨hnew, hk⟩))).2

section

variable {world : World Name} {start state : State Name} {asked : Dict Name Constraint}
  {new : Dict Name Version}

/-- What a search from `unvisited` adds to what was visited. -/
structure Visits (world : World Name) (start : State Name) (new : Dict Name Version)
    (unvisited : List (Name × Version)) (visited result : Dict Name Version) : Prop where
  kept : Grows visited result
  listed : ∀ e ∈ unvisited, result.get e.1 ≠ none
  chosen : Grows result new
  closed : ∀ k, result.get k ≠ none → visited.get k = none →
    ∀ q, Needs world start new k q → result.get q ≠ none
  reached : ∀ k, result.get k ≠ none → visited.get k = none →
    ∃ e ∈ unvisited, Relation.ReflTransGen (Needs world start new) e.1 k

theorem Grows.ne_none {visited visited' : Dict Name Version} (h : Grows visited visited')
    {k : Name} (hk : visited.get k ≠ none) : visited'.get k ≠ none := by
  obtain ⟨v, hv⟩ := Option.ne_none_iff_exists'.mp hk
  rw [h k v hv]
  exact Option.some_ne_none v

/-- Visiting a new name grows what was visited. -/
theorem grows_insert {visited : Dict Name Version} {pkg : Name} (h : visited.get pkg = none)
    (vsn : Version) : Grows visited (visited.insert pkg vsn) := by
  intro k v hk
  rw [Dict.get_insert_of_ne _ _]
  · exact hk
  · rintro rfl
    rw [h] at hk
    cases hk

/-- What is visited from a package next: its dependencies in the solution, unless visited. -/
theorem mem_newUnvisited {visited : Dict Name Version} {newDeps : Dict Name Constraint}
    {e : Name × Version} :
    e ∈ (new.filter fun k _ => (newDeps.diff visited).member k).toList ↔
      new.get e.1 = some e.2 ∧ newDeps.get e.1 ≠ none ∧ visited.get e.1 = none := by
  rw [← Dict.get_eq_some_iff, Dict.get_filter, Option.filter_eq_some_iff, Dict.member_iff]
  refine and_congr_right fun _ => ?_
  rw [Dict.get_diff, ← Option.ne_none_iff_exists']
  cases h : visited.member e.1 with
  | true =>
    obtain ⟨v, hv⟩ := Dict.member_iff.mp h
    simp [hv]
  | false =>
    rw [Dict.not_member_iff] at h
    simp [h]

theorem length_newUnvisited_le (new visited : Dict Name Version) (newDeps : Dict Name Constraint) :
    (new.filter fun k _ => (newDeps.diff visited).member k).toList.length ≤ new.toList.length :=
  List.length_filter_le ..

/-- A first package, then what its dependencies lead to, then the rest. -/
theorem Visits.cons {pkg : Name} {vsn : Version} {infos newUnvisited : List (Name × Version)}
    {visited visited1 result : Dict Name Version} (hpkg : visited.get pkg = none)
    (hdeps : ∀ e ∈ newUnvisited, Needs world start new pkg e.1)
    (hall : ∀ q, Needs world start new pkg q → visited.get q ≠ none ∨ ∃ e ∈ newUnvisited, e.1 = q)
    (hfirst : Visits world start new newUnvisited (visited.insert pkg vsn) visited1)
    (hrest : Visits world start new infos visited1 result) :
    Visits world start new ((pkg, vsn) :: infos) visited result := by
  have hgrows : Grows visited (visited.insert pkg vsn) := grows_insert hpkg vsn
  have hseen : visited1.get pkg ≠ none := by
    refine hfirst.kept.ne_none ?_
    rw [Dict.get_insert_self]
    exact Option.some_ne_none vsn
  have hpkg_closed : ∀ q, Needs world start new pkg q → visited1.get q ≠ none := by
    intro q hq
    rcases hall q hq with hq | ⟨e, he, rfl⟩
    · exact hfirst.kept.ne_none (hgrows.ne_none hq)
    · exact hfirst.listed e he
  refine ⟨fun k v hk => hrest.kept k v (hfirst.kept k v (hgrows k v hk)), fun e he => ?_,
    hrest.chosen, fun k hk hnone q hq => ?_, fun k hk hnone => ?_⟩
  · rcases List.mem_cons.mp he with rfl | he
    · exact hrest.kept.ne_none hseen
    · exact hrest.listed e he
  · by_cases hk1 : visited1.get k = none
    · exact hrest.closed k hk hk1 q hq
    · by_cases hkp : k = pkg
      · subst hkp
        exact hrest.kept.ne_none (hpkg_closed q hq)
      · refine hrest.kept.ne_none (hfirst.closed k hk1 ?_ q hq)
        rw [Dict.get_insert_of_ne _ hkp, hnone]
  · by_cases hk1 : visited1.get k = none
    · obtain ⟨e, he, hreach⟩ := hrest.reached k hk hk1
      exact ⟨e, List.mem_cons_of_mem _ he, hreach⟩
    · refine ⟨(pkg, vsn), List.mem_cons_self .., ?_⟩
      by_cases hkp : k = pkg
      · rw [hkp]
      · obtain ⟨e, he, hreach⟩ :=
          hfirst.reached k hk1 (by rw [Dict.get_insert_of_ne _ hkp, hnone])
        exact .head (hdeps e he) hreach

/-- With the depth it needs, `getTransitive` finds every lookup. -/
theorem getTransitive_spec (hnew : IsSolved world start state asked new) {fuel : ℕ}
    {unvisited : List (Name × Version)} {visited : Dict Name Version}
    (hunvisited : ∀ e ∈ unvisited, new.get e.1 = some e.2) (hvisited : Grows visited new)
    (hfuel : unvisited.length + (unseen new visited).card * (new.toList.length + 1) ≤ fuel) :
    ∃ result, getTransitive state.cDict new fuel unvisited visited = .ok result ∧
      Visits world start new unvisited visited result := by
  induction fuel generalizing unvisited visited with
  | zero =>
    rcases unvisited with _ | ⟨⟨pkg, vsn⟩, infos⟩
    · refine ⟨visited, rfl, fun k v hk => hk, by simp, hvisited, fun k hk hnone => ?_,
        fun k hk hnone => ?_⟩
      · exact absurd hnone hk
      · exact absurd hnone hk
    · simp at hfuel
  | succ fuel ih =>
    rcases unvisited with _ | ⟨⟨pkg, vsn⟩, infos⟩
    · refine ⟨visited, rfl, fun k v hk => hk, by simp, hvisited, fun k hk hnone => ?_,
        fun k hk hnone => ?_⟩
      · exact absurd hnone hk
      · exact absurd hnone hk
    have hpkg : new.get pkg = some vsn := hunvisited (pkg, vsn) (List.mem_cons_self ..)
    have hinfos : ∀ e ∈ infos, new.get e.1 = some e.2 :=
      fun e he => hunvisited e (List.mem_cons_of_mem _ he)
    rw [List.length_cons] at hfuel
    rw [getTransitive]
    by_cases hmember : visited.member pkg = true
    · rw [if_pos hmember]
      obtain ⟨result, hresult, hv⟩ := ih hinfos hvisited (by omega)
      refine ⟨result, hresult, hv.kept, fun e he => ?_, hv.chosen, hv.closed, fun k hk hnone => ?_⟩
      · rcases List.mem_cons.mp he with rfl | he
        · obtain ⟨v, hv'⟩ := Dict.member_iff.mp hmember
          rw [hv.kept pkg v hv']
          exact Option.some_ne_none v
        · exact hv.listed e he
      · obtain ⟨e, he, hreach⟩ := hv.reached k hk hnone
        exact ⟨e, List.mem_cons_of_mem _ he, hreach⟩
    · rw [if_neg hmember, hnew.remembered pkg vsn hpkg]
      dsimp only
      have hnone : visited.get pkg = none :=
        Dict.not_member_iff.mp (Bool.eq_false_iff.mpr hmember)
      have hgrows : Grows visited (visited.insert pkg vsn) := grows_insert hnone vsn
      have hlt : (unseen new (visited.insert pkg vsn)).card < (unseen new visited).card := by
        refine card_unseen_lt hgrows (k := pkg) ?_ hnone ?_
        · rw [hpkg]
          exact Option.some_ne_none vsn
        · rw [Dict.get_insert_self]
          exact Option.some_ne_none vsn
      -- one package fewer leaves depth for all of the solution
      have hdepth : ∀ n, n < (unseen new visited).card →
          n * (new.toList.length + 1) + (new.toList.length + 1)
            ≤ (unseen new visited).card * (new.toList.length + 1) := by
        intro n hn
        rw [← Nat.succ_mul]
        exact Nat.mul_le_mul_right _ hn
      have hfirst : Grows (visited.insert pkg vsn) new := by
        intro k v hk
        rw [Dict.get_insert] at hk
        split at hk
        · next heq =>
          cases hk
          rw [heq, hpkg]
        · exact hvisited k v hk
      have hlen := length_newUnvisited_le new visited (elmJson world start pkg vsn).deps
      obtain ⟨visited1, hvisited1, hv1⟩ := ih (fun e he => (mem_newUnvisited.mp he).1) hfirst
        (by
          have h := hdepth _ hlt
          exact (Nat.add_le_add_right hlen _).trans (by omega))
      have hle : (unseen new visited1).card < (unseen new visited).card :=
        (Finset.card_le_card (unseen_subset hv1.kept)).trans_lt hlt
      obtain ⟨result, hresult, hv⟩ := ih hinfos hv1.chosen (by
        have h := hdepth _ hle
        omega)
      rw [hvisited1]
      refine ⟨result, hresult, Visits.cons hnone (fun e he => ?_) (fun q hq => ?_) hv1 hv⟩
      · exact ⟨vsn, hpkg, (mem_newUnvisited.mp he).2.1⟩
      · obtain ⟨v, hv, hdep⟩ := hq
        rw [hpkg] at hv
        cases hv
        by_cases hseen : visited.get q = none
        · obtain ⟨w, hw⟩ := Option.ne_none_iff_exists'.mp (hnew.needs pkg q ⟨vsn, hpkg, hdep⟩)
          exact Or.inr ⟨(q, w), mem_newUnvisited.mpr ⟨hw, hdep, hseen⟩, rfl⟩
        · exact Or.inl hseen

/-- `getTransitive` from packages of the solution: what they lead to. -/
theorem getTransitive_ok (hnew : IsSolved world start state asked new) {d : Dict Name Version}
    (hd : Grows d new) : ∃ reached,
      getTransitive state.cDict new (transitiveDepth new d.toList) d.toList Dict.empty
        = .ok reached ∧
      Grows reached new ∧ ∀ k, reached.get k ≠ none ↔
        ∃ p, d.get p ≠ none ∧ Relation.ReflTransGen (Needs world start new) p k := by
  have hdepth : d.toList.length + (unseen new Dict.empty).card * (new.toList.length + 1)
      ≤ transitiveDepth new d.toList := by
    have hcard := card_unseen_le new Dict.empty
    rw [transitiveDepth]
    nlinarith [Nat.mul_le_mul_right (new.toList.length + 1) hcard]
  have hempty : Grows Dict.empty new := by
    intro k v hk
    rw [Dict.get_empty] at hk
    cases hk
  obtain ⟨reached, hreached, hv⟩ := getTransitive_spec hnew
    (fun e he => hd e.1 e.2 (Dict.get_eq_some_iff.mpr he)) hempty hdepth
  refine ⟨reached, hreached, hv.chosen, fun k => ?_⟩
  constructor
  · intro hk
    obtain ⟨e, he, hreach⟩ := hv.reached k hk rfl
    refine ⟨e.1, ?_, hreach⟩
    rw [Dict.get_eq_some_iff.mpr he]
    exact Option.some_ne_none _
  · rintro ⟨p, hp, hreach⟩
    induction hreach with
    | refl =>
      obtain ⟨v, hv'⟩ := Option.ne_none_iff_exists'.mp hp
      exact hv.listed (p, v) (Dict.get_eq_some_iff.mp hv')
    | tail _ hneeds ih => exact hv.closed _ ih rfl _ hneeds

/-! ## The outline -/

/-- The packages of the one dictionary are not those of the other. -/
def Apart (a b : Dict Name Version) : Prop := ∀ name, a.get name ≠ none → b.get name = none

/-- The four maps of an outline are disjoint. -/
structure AppOutline.Disjoint (o : AppOutline Name) : Prop where
  directs : Apart o.depsDirect o.testDirect
  deps : Apart o.depsDirect o.depsIndirect
  tests : Apart o.testDirect o.testIndirect
  indirects : Apart o.depsIndirect o.testIndirect
  depsDirect_testIndirect : Apart o.depsDirect o.testIndirect
  depsIndirect_testDirect : Apart o.depsIndirect o.testDirect

/-- The one package leads to the other through the dependencies of chosen versions. -/
abbrev Reaches (world : World Name) (start : State Name) (new : Dict Name Version) :
    Name → Name → Prop :=
  Relation.ReflTransGen (Needs world start new)

/-- A solution sorted into an outline: the maps are disjoint, but for direct test dependencies
    that the direct dependencies need. -/
structure AppOutline.Sorted (world : World Name) (start : State Name) (new : Dict Name Version)
    (o : AppOutline Name) : Prop where
  directs : Apart o.depsDirect o.testDirect
  deps : Apart o.depsDirect o.depsIndirect
  tests : Apart o.testDirect o.testIndirect
  indirects : Apart o.depsIndirect o.testIndirect
  depsDirect_testIndirect : Apart o.depsDirect o.testIndirect
  union : ∀ name v, new.get name = some v ↔
    o.depsDirect.get name = some v ∨ o.depsIndirect.get name = some v ∨
      o.testDirect.get name = some v ∨ o.testIndirect.get name = some v
  depsIndirect : ∀ name, o.depsIndirect.get name ≠ none ↔ o.depsDirect.get name = none ∧
    ∃ p, o.depsDirect.get p ≠ none ∧ Reaches world start new p name
  testIndirect : ∀ name, o.testIndirect.get name ≠ none ↔ new.get name ≠ none ∧
    o.depsDirect.get name = none ∧ o.depsIndirect.get name = none ∧ o.testDirect.get name = none

/-- Where the smaller dictionary has a name it has the same version. -/
theorem Grows.eq {a new : Dict Name Version} (h : Grows a new) {name : Name} {v : Version}
    (hnew : new.get name = some v) (ha : a.get name ≠ none) : a.get name = some v := by
  obtain ⟨w, hw⟩ := Option.ne_none_iff_exists'.mp ha
  rw [hw, ← h name w hw, hnew]

/-- What is written: the direct sections given, what they need, and the rest. -/
theorem rewritten_sorted (hnew : IsSolved world start state asked new)
    (allDeps : Dict Name Version) {d td : Dict Name Version} (hd : Grows d new) (htd : Grows td new)
    (hdirects : Apart d td) : ∃ o,
      rewritten state allDeps new d td = .ok (.SolverOk ⟨allDeps, new, o⟩) ∧
      o.Sorted world start new ∧ o.depsDirect = d ∧ o.testDirect = td := by
  obtain ⟨reached, hreached, hgrows, hspec⟩ := getTransitive_ok hnew hd
  -- each section is what the ones before it leave over
  have hi : ∀ name, (reached.diff d).get name ≠ none ↔
      d.get name = none ∧ reached.get name ≠ none := by
    intro name
    simp only [Option.ne_none_iff_exists', Dict.get_diff_eq_some_iff, exists_and_right]
    exact and_comm
  have hgrows_i : Grows (reached.diff d) new :=
    fun name v h => hgrows name v (Dict.get_diff_eq_some_iff.mp h).1
  have hti : ∀ name v, (new.diff ([d, reached.diff d, td].foldr Dict.union Dict.empty)).get name
      = some v ↔ new.get name = some v ∧ d.get name = none ∧ (reached.diff d).get name = none ∧
        td.get name = none := by
    intro name v
    rw [Dict.get_diff_eq_some_iff, List.foldr_cons, List.foldr_cons, List.foldr_cons,
      List.foldr_nil, Dict.get_union_eq_none_iff, Dict.get_union_eq_none_iff,
      Dict.get_union_eq_none_iff, Dict.get_empty, and_iff_left rfl]
  have hti' : ∀ name,
      (new.diff ([d, reached.diff d, td].foldr Dict.union Dict.empty)).get name ≠ none ↔
        new.get name ≠ none ∧ d.get name = none ∧ (reached.diff d).get name = none ∧
          td.get name = none := by
    intro name
    simp only [Option.ne_none_iff_exists', hti, exists_and_right]
  refine ⟨⟨d, reached.diff d, td,
    new.diff ([d, reached.diff d, td].foldr Dict.union Dict.empty)⟩, ?_, ?_, rfl, rfl⟩
  · rw [rewritten, hreached]
  · refine ⟨hdirects, fun name h => ?_, fun name h => ?_, fun name h => ?_, fun name h => ?_,
      fun name v => ⟨fun h => ?_, ?_⟩, fun name => ?_, hti'⟩
    · by_contra hne
      exact h ((hi name).mp hne).1
    · by_contra hne
      exact h ((hti' name).mp hne).2.2.2
    · by_contra hne
      exact h ((hti' name).mp hne).2.2.1
    · by_contra hne
      exact h ((hti' name).mp hne).2.1
    -- a version is in the first section that has its package
    · by_cases h1 : d.get name = none
      · by_cases h2 : (reached.diff d).get name = none
        · by_cases h3 : td.get name = none
          · exact Or.inr (Or.inr (Or.inr ((hti name v).mpr ⟨h, h1, h2, h3⟩)))
          · exact Or.inr (Or.inr (Or.inl (htd.eq h h3)))
        · exact Or.inr (Or.inl (hgrows_i.eq h h2))
      · exact Or.inl (hd.eq h h1)
    · rintro (h | h | h | h)
      · exact hd name v h
      · exact hgrows_i name v h
      · exact htd name v h
      · exact ((hti name v).mp h).1
    · rw [hi, hspec]

/-- What a package of the solution leads to is in the solution. -/
theorem IsSolved.reaches (hnew : IsSolved world start state asked new) {p name : Name}
    (hp : new.get p ≠ none) (h : Reaches world start new p name) : new.get name ≠ none := by
  induction h with
  | refl => exact hp
  | tail _ hneeds _ => exact hnew.needs _ _ hneeds

/-- What the direct dependencies lead to is in one of their two maps. -/
theorem AppOutline.Sorted.not_testIndirect {o : AppOutline Name} (h : o.Sorted world start new)
    {p name : Name} (hp : o.depsDirect.get p ≠ none) (hreach : Reaches world start new p name) :
    o.testIndirect.get name = none := by
  by_contra hne
  obtain ⟨-, hd, hi, -⟩ := (h.testIndirect name).mp hne
  exact (h.depsIndirect name).mpr ⟨hd, p, hp, hreach⟩ hi

/-- What the direct test dependencies lead to, and no other map has, is the fourth. -/
theorem AppOutline.Sorted.testIndirect_of_reaches {o : AppOutline Name}
    (h : o.Sorted world start new) (hnew : IsSolved world start state asked new) {name : Name}
    (hd : o.depsDirect.get name = none) (hi : o.depsIndirect.get name = none)
    (htd : o.testDirect.get name = none)
    (hreach : ∃ p, o.testDirect.get p ≠ none ∧ Reaches world start new p name) :
    o.testIndirect.get name ≠ none := by
  obtain ⟨p, hp, hreach⟩ := hreach
  obtain ⟨v, hv⟩ := Option.ne_none_iff_exists'.mp hp
  refine (h.testIndirect name).mpr ⟨hnew.reaches ?_ hreach, hd, hi, htd⟩
  rw [(h.union p v).mpr (Or.inr (Or.inr (Or.inl hv)))]
  exact Option.some_ne_none v

/-- The fourth map has only what was asked for, direct dependencies apart, and what that
    leads to. -/
theorem AppOutline.Sorted.reaches_of_testIndirect {o : AppOutline Name}
    (h : o.Sorted world start new) (hnew : IsSolved world start state asked new)
    (hself : SelfFree world start) {name : Name} (hname : o.testIndirect.get name ≠ none) :
    ∃ a, asked.get a ≠ none ∧ o.depsDirect.get a = none ∧ Reaches world start new a name := by
  obtain ⟨a, ha, hreach⟩ := hnew.reached hself name ((h.testIndirect name).mp hname).1
  refine ⟨a, ha, ?_, hreach⟩
  by_contra hne
  exact hname (h.not_testIndirect hne hreach)

/-! ## The searches of the two operations -/

/-- The packages that an attempt asks for. -/
theorem attempt_ok {fuel : ℕ} {pkg : Name} {toConstraint : Version → Constraint}
    {deps : Dict Name Version} {state0 : State Name} (hstate : Follows world start state0)
    (h : attempt world fuel pkg toConstraint deps state0 = .ISOk state (some new)) :
    ∃ asked, IsSolved world start state asked new ∧
      ∀ k, asked.get k ≠ none ↔ k = pkg ∨ deps.get k ≠ none := by
  rw [attempt, Solver.map] at h
  split at h
  · next stateA solved htry =>
    cases solved with
    | none => cases h
    | some solved =>
      cases h
      refine ⟨_, tryConstraints_solution hstate htry, fun k => ?_⟩
      rw [Dict.get_insert, Dict.get_map]
      split
      · next heq => simp [heq]
      · next hne => simp [hne]
  · cases h
  · cases h

/-- An attempt keeps what is known. -/
theorem keeps_attempt (fuel : ℕ) (pkg : Name) (toConstraint : Version → Constraint)
    (deps : Dict Name Version) : Keeps world start (attempt world fuel pkg toConstraint deps) :=
  (keeps_exploreGoals fuel _).map _

/-- Only an attempt with too little fuel goes on. -/
theorem attempt_goesOn {fuel : ℕ} {pkg : Name} {toConstraint : Version → Constraint}
    {deps : Dict Name Version} {state0 state' : State Name} (hstate : Follows world start state0)
    (h : attempt world fuel pkg toConstraint deps state0 = .ISOk state' none) :
    fuel ≤ turnsOf start := by
  rw [attempt, Solver.map] at h
  split at h
  · next stateA solved htry =>
    cases solved with
    | none => exact tryConstraints_goesOn hstate htry
    | some solved => cases h
  · cases h
  · cases h

end

/-- What a run makes of its search: a solution is written, as an outline of which `P` holds, and
    nothing else is; no lookup fails and `getTransitive` ends, so a run without a result is one of
    a search that goes on. -/
structure Writes (P : AppSolution Name → Prop)
    (search : InnerSolver Name (Option (Dict Name Version)))
    (run : Except Stop (SolverResult Name (AppSolution Name))) : Prop where
  solved : ∀ state new, search = .ISOk state (some new) →
    ∃ sol, run = .ok (.SolverOk sol) ∧ sol.new = new ∧ P sol
  written : ∀ sol, run = .ok (.SolverOk sol) → ∃ state, search = .ISOk state (some sol.new)
  stops : ∀ e, run = .error e → e = .searchGoesOn ∧ ∃ state, search = .ISOk state none

/-- The result writes an outline when its search gives a solution that does. -/
theorem writes_appResult {P : AppSolution Name → Prop} {connection : Connection}
    {search : InnerSolver Name (Option (Dict Name Version))}
    {ok : State Name → Dict Name Version → Except Stop (SolverResult Name (AppSolution Name))}
    (h : ∀ state new, search = .ISOk state (some new) →
      ∃ sol, ok state new = .ok (.SolverOk sol) ∧ sol.new = new ∧ P sol) :
    Writes P search (appResult connection search ok) := by
  -- online or offline, the answer without a solution is no `SolverOk`
  have hnone : ∀ sol, (noSolution connection : SolverResult Name (AppSolution Name))
      ≠ .SolverOk sol := by
    cases connection <;> exact fun sol heq => (by cases heq)
  refine ⟨fun state new hsearch => ?_, fun sol hrun => ?_, fun e hrun => ?_⟩
  · rw [hsearch]
    exact h state new hsearch
  · cases hsearch : search with
    | ISBack state =>
      rw [hsearch] at hrun
      exact absurd (Except.ok.inj hrun) (hnone sol)
    | ISErr e =>
      rw [hsearch] at hrun
      cases hrun
    | ISOk state answer =>
      rw [hsearch] at hrun
      cases answer with
      | none => cases hrun
      | some new =>
        obtain ⟨sol', heq, rfl, -⟩ := h state new hsearch
        rw [appResult, heq] at hrun
        cases hrun
        exact ⟨state, rfl⟩
  · cases hsearch : search with
    | ISBack state =>
      rw [hsearch] at hrun
      cases hrun
    | ISErr e =>
      rw [hsearch] at hrun
      cases hrun
    | ISOk state answer =>
      rw [hsearch] at hrun
      cases answer with
      | none =>
        cases hrun
        exact ⟨rfl, state, rfl⟩
      | some new =>
        obtain ⟨sol', heq, -, -⟩ := h state new hsearch
        rw [appResult, heq] at hrun
        cases hrun

/-- What an intersection has the first dictionary has too. -/
theorem grows_intersect {κ : Type} (new : Dict Name Version) (other : Dict Name κ) :
    Grows (new.intersect other) new :=
  fun _ _ h => (Dict.get_intersect_eq_some_iff.mp h).1

theorem intersect_ne_none {κ : Type} {new : Dict Name Version} {other : Dict Name κ}
    {name : Name} :
    (new.intersect other).get name ≠ none ↔ new.get name ≠ none ∧ other.get name ≠ none := by
  simp only [Option.ne_none_iff_exists' (o := (new.intersect other).get name),
    Dict.get_intersect_eq_some_iff, exists_and_right, ← Option.ne_none_iff_exists']

/-- The fourth map has what the direct test dependencies lead to, and besides only what `roots`
    lead to. -/
def TestsFor (world : World Name) (start : State Name) (roots : Name → Prop)
    (sol : AppSolution Name) : Prop :=
  (∀ name, sol.outline.depsDirect.get name = none → sol.outline.depsIndirect.get name = none →
    sol.outline.testDirect.get name = none →
    (∃ p, sol.outline.testDirect.get p ≠ none ∧ Reaches world start sol.new p name) →
    sol.outline.testIndirect.get name ≠ none) ∧
  (SelfFree world start → ∀ name, sol.outline.testIndirect.get name ≠ none →
    ∃ p, (sol.outline.testDirect.get p ≠ none ∨ roots p) ∧ Reaches world start sol.new p name)

/-- An outline split in its three parts is written with the solution's versions. -/
theorem rewritten_writes {world : World Name} {start state : State Name}
    {asked : Dict Name Constraint} {allDeps new d td : Dict Name Version} {roots : Name → Prop}
    (hnew : IsSolved world start state asked new) (hd : Grows d new) (htd : Grows td new)
    (hdirects : Apart d td)
    (hroots : ∀ a, asked.get a ≠ none → d.get a ≠ none ∨ td.get a ≠ none ∨ roots a) :
    ∃ sol, rewritten state allDeps new d td = .ok (.SolverOk sol) ∧ sol.new = new ∧
      sol.outline.Sorted world start sol.new ∧ TestsFor world start roots sol := by
  obtain ⟨o, hwrites, hsorted, rfl, rfl⟩ := rewritten_sorted hnew allDeps hd htd hdirects
  refine ⟨_, hwrites, rfl, hsorted,
    fun name h1 h2 h3 h4 => hsorted.testIndirect_of_reaches hnew h1 h2 h3 h4,
    fun hself name hname => ?_⟩
  obtain ⟨a, ha, hnot, hreach⟩ := hsorted.reaches_of_testIndirect hnew hself hname
  refine ⟨a, ?_, hreach⟩
  rcases hroots a ha with h | h
  · exact absurd hnot h
  · exact h

section

variable (world : World Name) (fuel : ℕ) (locals : List (Name × String)) (connection : Connection)
  (registry : Dict Name KnownVersions) (pkg : Name) (appData : AppOutline Name)

/-- The outline that `addToApp` writes. -/
theorem addToApp_sorted (happ : appData.Disjoint) (forTest : Bool)
    (htest : forTest = true → appData.depsDirect.get pkg = none) :
    Writes (fun sol =>
        sol.outline.Sorted world (initial locals connection registry) sol.new ∧
          TestsFor world (initial locals connection registry)
            (fun p => appData.depsIndirect.get p ≠ none ∨ appData.testIndirect.get p ≠ none) sol)
      (addSolver world fuel pkg appData (initial locals connection registry))
      (addToApp world fuel locals connection registry pkg appData forTest) := by
  rw [addToApp]
  dsimp only
  refine writes_appResult fun state new hsearch => ?_
  have hstart : Follows world (initial locals connection registry)
      (initial locals connection registry) := follows_refl locals connection registry
  -- whichever attempt succeeds, it asks for packages of the old outline and the new one
  obtain ⟨asked, hnew, hasked⟩ : ∃ asked,
      IsSolved world (initial locals connection registry) state asked new ∧
        ∀ k, asked.get k ≠ none → k = pkg ∨ appData.depsDirect.get k ≠ none ∨
          appData.testDirect.get k ≠ none ∨ appData.depsIndirect.get k ≠ none ∨
          appData.testIndirect.get k ≠ none := by
    obtain ⟨s, hs, state0, hstate0, -, hattempt⟩ := oneOf_ok (by
      intro s hs
      simp only [List.mem_cons, List.not_mem_nil, or_false] at hs
      rcases hs with rfl | rfl | rfl | rfl | rfl <;> exact keeps_attempt fuel pkg _ _)
      hstart hsearch
    have hdeps : ∀ deps : Dict Name Version, ∀ toConstraint : Version → Constraint,
        attempt world fuel pkg toConstraint deps state0 = .ISOk state (some new) →
        (∀ k, deps.get k ≠ none → appData.depsDirect.get k ≠ none ∨
          appData.testDirect.get k ≠ none ∨ appData.depsIndirect.get k ≠ none ∨
          appData.testIndirect.get k ≠ none) → ∃ asked,
        IsSolved world (initial locals connection registry) state asked new ∧
          ∀ k, asked.get k ≠ none → k = pkg ∨ appData.depsDirect.get k ≠ none ∨
            appData.testDirect.get k ≠ none ∨ appData.depsIndirect.get k ≠ none ∨
            appData.testIndirect.get k ≠ none := by
      intro deps toConstraint hattempt hdeps
      obtain ⟨asked, hnew, hasked⟩ := attempt_ok hstate0 hattempt
      exact ⟨asked, hnew, fun k hk => ((hasked k).mp hk).imp_right (hdeps k)⟩
    have hdirects : ∀ k, (appData.depsDirect.union appData.testDirect).get k ≠ none →
        appData.depsDirect.get k ≠ none ∨ appData.testDirect.get k ≠ none := by
      intro k hk
      rwa [Ne, Dict.get_union_eq_none_iff, not_and_or] at hk
    have hall : ∀ k, ((appData.depsDirect.union appData.testDirect).union
        (appData.depsIndirect.union appData.testIndirect)).get k ≠ none →
        appData.depsDirect.get k ≠ none ∨ appData.testDirect.get k ≠ none ∨
          appData.depsIndirect.get k ≠ none ∨ appData.testIndirect.get k ≠ none := by
      intro k hk
      rw [Ne, Dict.get_union_eq_none_iff, Dict.get_union_eq_none_iff, Dict.get_union_eq_none_iff,
        not_and_or, not_and_or, not_and_or, or_assoc] at hk
      exact hk
    simp only [List.mem_cons, List.not_mem_nil, or_false] at hs
    rcases hs with rfl | rfl | rfl | rfl | rfl
    · exact hdeps _ _ hattempt hall
    all_goals exact hdeps _ _ hattempt fun k hk => (hdirects k hk).imp_right Or.inl
  -- where the package goes depends on the flag: into the tests, or out of them
  cases forTest with
  | true =>
    rw [if_pos rfl, if_pos rfl]
    refine rewritten_writes hnew (grows_intersect _ _) (grows_intersect _ _) (fun name h => ?_)
      fun a ha => ?_
    · by_contra hne
      have hdirect := (intersect_ne_none.mp h).2
      have htestDirect := (intersect_ne_none.mp hne).2
      rw [Dict.get_insert] at htestDirect
      split at htestDirect
      · next heq => exact hdirect (heq ▸ htest rfl)
      · exact htestDirect (happ.directs name hdirect)
    · have hin := hnew.asks a ha
      simp only [intersect_ne_none, Dict.get_insert]
      rcases hasked a ha with rfl | h | h | h
      · exact Or.inr (Or.inl ⟨hin, by simp⟩)
      · exact Or.inl ⟨hin, h⟩
      · refine Or.inr (Or.inl ⟨hin, ?_⟩)
        split
        · exact Option.some_ne_none _
        · exact h
      · exact Or.inr (Or.inr h)
  | false =>
    rw [if_neg Bool.false_ne_true, if_neg Bool.false_ne_true]
    refine rewritten_writes hnew (grows_intersect _ _) (grows_intersect _ _) (fun name h => ?_)
      fun a ha => ?_
    · by_contra hne
      have hdirect := (intersect_ne_none.mp h).2
      have htestDirect := (intersect_ne_none.mp hne).2
      rw [Dict.get_remove] at htestDirect
      rw [Dict.get_insert] at hdirect
      split at htestDirect
      · exact htestDirect rfl
      · next hne =>
        rw [if_neg hne] at hdirect
        exact htestDirect (happ.directs name hdirect)
    · have hin := hnew.asks a ha
      simp only [intersect_ne_none, Dict.get_insert, Dict.get_remove]
      by_cases hpkg : a = pkg
      · exact Or.inl ⟨hin, by simp [hpkg]⟩
      · rw [if_neg hpkg, if_neg hpkg]
        rcases hasked a ha with h | h | h | h
        · exact absurd h hpkg
        · exact Or.inl ⟨hin, h⟩
        · exact Or.inr (Or.inl ⟨hin, h⟩)
        · exact Or.inr (Or.inr h)

/-- The outline that `removeFromApp` writes. -/
theorem removeFromApp_sorted (happ : appData.Disjoint)
    (hself : SelfFree world (initial locals connection registry)) :
    Writes (fun sol =>
        sol.outline.Sorted world (initial locals connection registry) sol.new ∧
          TestsFor world (initial locals connection registry) (fun _ => False) sol)
      (removeSolver world fuel pkg appData (initial locals connection registry))
      (removeFromApp world fuel locals connection registry pkg appData) := by
  rw [removeFromApp]
  dsimp only
  refine writes_appResult fun state new hsearch => ?_
  have hstart : Follows world (initial locals connection registry)
      (initial locals connection registry) := follows_refl locals connection registry
  rw [removeSolver, Solver.map] at hsearch
  split at hsearch
  · next stateA solved htry =>
    cases solved with
    | none => cases hsearch
    | some solved =>
      cases hsearch
      have hnew := tryConstraints_solution hstart htry
      -- what is asked for exactly is chosen
      have hchosen : ∀ name v, name ≠ pkg →
          (appData.depsDirect.union appData.testDirect).get name = some v →
          (solvedVersions solved).get name = some v := by
        intro name v hname hv
        obtain ⟨w, hw, hsat⟩ := hnew.asks_met hself name (Constraint.exactly v) (by
          rw [Dict.get_map, Dict.get_remove, if_neg hname, hv]
          rfl)
        rw [hw, Constraint.satisfies_exactly.mp hsat]
      have hremove : ∀ (direct : Dict Name Version),
          (∀ name v, direct.get name = some v →
            (appData.depsDirect.union appData.testDirect).get name = some v) →
          Grows (direct.remove pkg) (solvedVersions solved) := by
        intro direct hdirect name v hv
        rw [Dict.get_remove] at hv
        split at hv
        · cases hv
        · next hne => exact hchosen name v hne (hdirect name v hv)
      refine rewritten_writes hnew (hremove _ fun name v hv => ?_) (hremove _ fun name v hv => ?_)
        (fun name h => ?_) fun a ha => ?_
      · rw [Dict.get_union, hv]
        rfl
      · have hnone : appData.depsDirect.get name = none := by
          by_contra hne
          rw [happ.directs name hne] at hv
          cases hv
        rw [Dict.get_union, hnone, hv]
        rfl
      · rw [Dict.get_remove] at h ⊢
        split
        · rfl
        · next hne =>
          rw [if_neg hne] at h
          exact happ.directs name h
      · rw [Dict.get_map, Dict.get_remove] at ha
        rw [Dict.get_remove, Dict.get_remove]
        split at ha
        · exact absurd rfl ha
        · next hne =>
          rw [if_neg hne, if_neg hne]
          rw [Ne, Option.map_eq_none_iff, Dict.get_union_eq_none_iff, not_and_or] at ha
          exact ha.imp_right Or.inl
  · cases hsearch
  · cases hsearch

/-- With the turns it needs, the search of `addToApp` ends. -/
theorem addSolver_ends (hfuel : turnsOf (initial locals connection registry) < fuel)
    (state : State Name) :
    addSolver world fuel pkg appData (initial locals connection registry) ≠ .ISOk state none := by
  intro hsearch
  rw [addSolver] at hsearch
  obtain ⟨s, hs, state0, hstate0, -, hattempt⟩ := oneOf_ok (by
    intro s hs
    simp only [List.mem_cons, List.not_mem_nil, or_false] at hs
    rcases hs with rfl | rfl | rfl | rfl | rfl <;> exact keeps_attempt fuel pkg _ _)
    (follows_refl locals connection registry) hsearch
  simp only [List.mem_cons, List.not_mem_nil, or_false] at hs
  rcases hs with rfl | rfl | rfl | rfl | rfl
  all_goals exact hfuel.not_ge (attempt_goesOn hstate0 hattempt)

/-- With fuel for its turns the solver of a removal ends. -/
theorem removeSolver_ends (hfuel : turnsOf (initial locals connection registry) < fuel)
    (state : State Name) :
    removeSolver world fuel pkg appData (initial locals connection registry)
      ≠ .ISOk state none := by
  intro hsearch
  rw [removeSolver, Solver.map] at hsearch
  split at hsearch
  · next stateA solved htry =>
    cases solved with
    | none =>
      exact hfuel.not_ge (tryConstraints_goesOn (follows_refl locals connection registry) htry)
    | some solved => cases hsearch
  · cases hsearch
  · cases hsearch

/-- A run that writes and whose search ends has a result. -/
theorem Writes.ends {P : AppSolution Name → Prop}
    {search : InnerSolver Name (Option (Dict Name Version))}
    {run : Except Stop (SolverResult Name (AppSolution Name))} (h : Writes P search run)
    (hends : ∀ state, search ≠ .ISOk state none) : ∃ result, run = .ok result := by
  cases hrun : run with
  | ok result => exact ⟨result, rfl⟩
  | error e =>
    obtain ⟨-, state, hsearch⟩ := h.stops e hrun
    exact absurd hsearch (hends state)

/-- Both operations write the solution that their search comes to, sorted, and no lookup of
    constraints fails; with two turns for each package the search ends, and so does the run.
    What `addToApp` asks for exactly stays in the solution, so its fourth map has what the former
    indirect dependencies lead to as well; that of `removeFromApp` has not. -/
theorem app_outline (happ : appData.Disjoint) :
    (∀ forTest : Bool, (forTest = true → appData.depsDirect.get pkg = none) →
      Writes (fun sol =>
          sol.outline.Sorted world (initial locals connection registry) sol.new ∧
            TestsFor world (initial locals connection registry)
              (fun p => appData.depsIndirect.get p ≠ none ∨ appData.testIndirect.get p ≠ none) sol)
        (addSolver world fuel pkg appData (initial locals connection registry))
        (addToApp world fuel locals connection registry pkg appData forTest) ∧
      (turnsOf (initial locals connection registry) < fuel → ∃ result,
        addToApp world fuel locals connection registry pkg appData forTest = .ok result)) ∧
    (SelfFree world (initial locals connection registry) →
      Writes (fun sol =>
          sol.outline.Sorted world (initial locals connection registry) sol.new ∧
            TestsFor world (initial locals connection registry) (fun _ => False) sol)
        (removeSolver world fuel pkg appData (initial locals connection registry))
        (removeFromApp world fuel locals connection registry pkg appData) ∧
      (turnsOf (initial locals connection registry) < fuel → ∃ result,
        removeFromApp world fuel locals connection registry pkg appData = .ok result)) := by
  refine ⟨fun forTest htest => ?_, fun hself => ?_⟩
  · have hwrites := addToApp_sorted world fuel locals connection registry pkg appData happ
      forTest htest
    exact ⟨hwrites, fun hfuel => hwrites.ends
      (addSolver_ends world fuel locals connection registry pkg appData hfuel)⟩
  · have hwrites := removeFromApp_sorted world fuel locals connection registry pkg appData happ
      hself
    exact ⟨hwrites, fun hfuel => hwrites.ends
      (removeSolver_ends world fuel locals connection registry pkg appData hfuel)⟩

end

/-! ## Outlines that are not sorted

    `alpha` needs `gamma`; in `selfish`, its first version needs a version of `alpha`. -/

namespace Demo

/-- A cache with one version of every package. -/
def plain : World PkgName where
  package name _ := name.2
  fileExists _ := true
  readUtf8 path := path
  dirDoesDirectoryExist _ := true
  metadata _ _ file := file
  get _ := .error "offline"
  constraintsDecoder text :=
    if text = "alpha/elm.json" then some (outline [(gamma, majors 1 1)]) else some (outline [])
  localOutlineError _ := none

/-- Three packages with one version each. -/
def ones : Dict PkgName KnownVersions :=
  Dict.fromList
    [ (alpha, ⟨⟨1, 0, 0⟩, []⟩)
    , (beta, ⟨⟨1, 0, 0⟩, []⟩)
    , (gamma, ⟨⟨1, 0, 0⟩, []⟩)
    ]

/-- A cache in which the first version of `alpha` depends on `alpha`. -/
def selfish : World PkgName :=
  { plain with
    package := fun name vsn => name.2 ++ toString vsn.major
    constraintsDecoder := fun text =>
      if text = "alpha1/elm.json" then some (outline [(alpha, majors 1 2)])
      else some (outline []) }

/-- An outline with these direct, indirect and direct test dependencies, all at 1.0.0. -/
def app (direct indirect test : List PkgName) : AppOutline PkgName where
  depsDirect := Dict.fromList (direct.map fun name => (name, Version.one))
  depsIndirect := Dict.fromList (indirect.map fun name => (name, Version.one))
  testDirect := Dict.fromList (test.map fun name => (name, Version.one))
  testIndirect := Dict.empty

/-- The run writes an outline of which `p` holds. -/
def writes (p : AppSolution PkgName → Bool) :
    Except Stop (SolverResult PkgName (AppSolution PkgName)) → Bool
  | .ok (.SolverOk sol) => p sol
  | _ => false

theorem sol_of_writes {p : AppSolution PkgName → Bool}
    {run : Except Stop (SolverResult PkgName (AppSolution PkgName))} (h : writes p run) :
    ∃ sol, run = .ok (.SolverOk sol) ∧ p sol := by
  rcases run with e | (sol | _ | _ | e)
  · cases h
  · exact ⟨sol, rfl, h⟩
  · cases h
  · cases h
  · cases h

/-- An outline without repetitions has disjoint parts. -/
theorem app_disjoint {direct indirect test : List PkgName}
    (h : (direct ++ (indirect ++ test)).Nodup) : (app direct indirect test).Disjoint := by
  rw [List.nodup_append', List.nodup_append'] at h
  obtain ⟨-, ⟨-, -, hit⟩, hd⟩ := h
  have hkey : ∀ (l : List PkgName) name,
      (Dict.fromList (l.map fun name => (name, Version.one))).get name ≠ none → name ∈ l := by
    intro l name hname
    have hmem := Dict.mem_of_get_fromList hname
    rwa [List.map_map, List.map_id''] at hmem
    exact fun _ => rfl
  have hapart : ∀ l l' : List PkgName, l.Disjoint l' →
      Apart (Dict.fromList (l.map fun name => (name, Version.one)))
        (Dict.fromList (l'.map fun name => (name, Version.one))) := by
    intro l l' hl name hname
    by_contra hname'
    exact hl (hkey l name hname) (hkey l' name hname')
  have hnone : ∀ a : Dict PkgName Version, Apart a Dict.empty := fun a name _ => rfl
  exact ⟨hapart _ _ fun name hname htest => hd hname (List.mem_append_right _ htest),
    hapart _ _ fun name hname hindirect => hd hname (List.mem_append_left _ hindirect),
    hnone _, hnone _, hnone _, hapart _ _ hit⟩

theorem plain_selfFree : SelfFree plain (initial [] .Online ones) := by
  intro pkg vsn
  have hjson : elmJson plain (initial [] .Online ones) pkg vsn =
      if pkg.2 ++ "/elm.json" = "alpha/elm.json" then outline [(gamma, majors 1 1)]
      else outline [] := by
    have hload : loadConstraints plain (initial [] .Online ones) pkg vsn =
        parseAndValidateCachedConstraints plain _ (pkg.2 ++ "/elm.json") := rfl
    rw [elmJson, hload, parseAndValidateCachedConstraints]
    simp only [plain]
    by_cases h : pkg.2 ++ "/elm.json" = "alpha/elm.json"
    · simp only [h, if_true]
      rfl
    · simp only [h, if_false]
      rfl
  rw [hjson]
  split
  · next h =>
    by_contra hne
    have hmem := Dict.mem_of_get_fromList hne
    simp only [List.map_cons, List.map_nil, List.mem_singleton] at hmem
    rw [hmem] at h
    exact absurd h (by decide)
  · rfl

end Demo

open Demo in
/-- Both operations at an outline whose direct dependency needs its indirect one: both write. -/
theorem app_outline_plain :
    (∃ sol, addToApp plain 8 [] .Online ones beta (app [alpha] [gamma] []) true
        = .ok (.SolverOk sol) ∧
      sol.outline.Sorted plain (initial [] .Online ones) sol.new ∧
      TestsFor plain (initial [] .Online ones) (fun p =>
        (app [alpha] [gamma] []).depsIndirect.get p ≠ none ∨
          (app [alpha] [gamma] []).testIndirect.get p ≠ none) sol) ∧
    (∃ sol, removeFromApp plain 8 [] .Online ones alpha (app [alpha] [gamma] [])
        = .ok (.SolverOk sol) ∧
      sol.outline.Sorted plain (initial [] .Online ones) sol.new ∧
      TestsFor plain (initial [] .Online ones) (fun _ => False) sol) := by
  have happ : (app [alpha] [gamma] []).Disjoint := app_disjoint (by decide)
  have hbeta : (app [alpha] [gamma] []).depsDirect.get beta = none := by decide
  have hadd := (app_outline plain 8 [] .Online ones beta (app [alpha] [gamma] []) happ).1 true
    fun _ => hbeta
  have hremove := (app_outline plain 8 [] .Online ones alpha (app [alpha] [gamma] []) happ).2
    plain_selfFree
  constructor
  · obtain ⟨sol, hrun, -⟩ := sol_of_writes (by decide +kernel : writes (fun _ => true)
      (addToApp plain 8 [] .Online ones beta (app [alpha] [gamma] []) true))
    obtain ⟨state, hsearch⟩ := hadd.1.written sol hrun
    obtain ⟨sol, hrun, -, hsorted⟩ := hadd.1.solved state _ hsearch
    exact ⟨sol, hrun, hsorted⟩
  · obtain ⟨sol, hrun, -⟩ := sol_of_writes (by decide +kernel : writes (fun _ => true)
      (removeFromApp plain 8 [] .Online ones alpha (app [alpha] [gamma] [])))
    obtain ⟨state, hsearch⟩ := hremove.1.written sol hrun
    obtain ⟨sol, hrun, -, hsorted⟩ := hremove.1.solved state _ hsearch
    exact ⟨sol, hrun, hsorted⟩

open Demo in
/-- A direct test dependency that a direct one needs is indirect as well; a direct dependency
    that is added for tests is in both; an indirect dependency that nothing needs becomes an
    indirect test dependency; and a package that depends on itself is written at a version that
    was not chosen. -/
theorem app_outline_overlaps :
    (∀ o ∈ [app [alpha] [] [gamma], app [alpha] [gamma] [], app [] [gamma] [], app [alpha] [] []],
      o.Disjoint) ∧
    writes (fun sol => sol.outline.depsIndirect.member gamma && sol.outline.testDirect.member gamma)
        (addToApp plain 8 [] .Online ones beta (app [alpha] [] [gamma]) false) ∧
    writes (fun sol => sol.outline.depsDirect.member alpha && sol.outline.testDirect.member alpha)
        (addToApp plain 8 [] .Online ones alpha (app [alpha] [gamma] []) true) ∧
    writes (fun sol => sol.outline.testIndirect.member gamma &&
          sol.outline.testDirect.toList.isEmpty)
        (addToApp plain 8 [] .Online ones beta (app [] [gamma] []) false) ∧
    writes (fun sol => sol.outline.depsDirect.get alpha = some ⟨1, 0, 0⟩ &&
          sol.new.get alpha = some ⟨2, 0, 0⟩)
        (removeFromApp selfish 8 [] .Online (Dict.fromList [(alpha, ⟨⟨2, 0, 0⟩, [⟨1, 0, 0⟩]⟩)]) beta
          (app [alpha] [] [])) := by
  refine ⟨fun o ho => ?_, by decide +kernel, by decide +kernel, by decide +kernel,
    by decide +kernel⟩
  simp only [List.mem_cons, List.not_mem_nil, or_false] at ho
  rcases ho with rfl | rfl | rfl | rfl <;> exact app_disjoint (by decide)

end Solver

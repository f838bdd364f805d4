import EcoCompiler.SolverApp

/-! # What a search that answers has done

    A search may answer though some `elm.json` does not load; each package version it chose
    was loaded all the same, and each of its choices was a turn.

    * `Keeps` — a step forgets nothing that was read;
    * `exploreGoals_turns` — an answer is come to by turns;
    * `Covered`, `Sound` — what holds of the goals on the way;
    * `tryConstraints_solution`. -/

namespace Solver

variable {Name : Type} [LinearOrder Name] {α β : Type}

/-- The state that a step leaves, unless it fails. -/
def InnerSolver.leaves : InnerSolver Name α → Option (State Name)
  | .ISOk state _ => some state
  | .ISBack state => some state
  | .ISErr _ => none

/-- What one state remembers, another does as well. -/
def Extends (state state' : State Name) : Prop :=
  ∀ k cs, state.cDict.get k = some cs → state'.cDict.get k = some cs

theorem Extends.refl (state : State Name) : Extends state state := fun _ _ h => h

theorem Extends.trans {state state' state'' : State Name} (h : Extends state state')
    (h' : Extends state' state'') : Extends state state'' := fun k cs hk => h' k cs (h k cs hk)

section

variable (world : World Name) (start : State Name)

/-- From a state of the search a step leaves one that remembers as much. -/
def Keeps (solver : Solver Name α) : Prop :=
  ∀ state, Follows world start state → ∀ state', (solver state).leaves = some state' →
    Follows world start state' ∧ Extends state state'

end

variable {world : World Name} {start : State Name}

/-- A step that leaves its state alone. -/
theorem keeps_of_leaves {solver : Solver Name α}
    (h : ∀ state, (solver state).leaves = some state) : Keeps world start solver := by
  intro state hstate state' hleaves
  rw [h state] at hleaves
  cases hleaves
  exact ⟨hstate, .refl state⟩

theorem keeps_pure (a : α) : Keeps world start (pure a) := keeps_of_leaves fun _ => rfl

/-- A solver that gives up keeps the state it has. -/
theorem keeps_backtrack : Keeps world start (backtrack : Solver Name α) :=
  keeps_of_leaves fun _ => rfl

/-- Mapping keeps the state. -/
theorem Keeps.map {solver : Solver Name α} (h : Keeps world start solver) (func : α → β) :
    Keeps world start (Solver.map func solver) := by
  intro state hstate state' hleaves
  refine h state hstate state' ?_
  rw [Solver.map] at hleaves
  cases hs : solver state with
  | ISOk stateA a => rw [hs] at hleaves; exact hleaves
  | ISBack stateA => rw [hs] at hleaves; exact hleaves
  | ISErr e => rw [hs] at hleaves; exact hleaves

/-- Solvers one after the other keep the state when both do. -/
theorem Keeps.andThen {solver : Solver Name α} (h : Keeps world start solver)
    {callback : α → Solver Name β} (hnext : ∀ a, Keeps world start (callback a)) :
    Keeps world start (Solver.andThen callback solver) := by
  intro state hstate state' hleaves
  have hfirst := h state hstate
  rw [Solver.andThen] at hleaves
  cases hs : solver state with
  | ISOk stateA a =>
    rw [hs] at hleaves hfirst
    obtain ⟨hstateA, hext⟩ := hfirst stateA rfl
    obtain ⟨hstate', hext'⟩ := hnext a stateA hstateA state' hleaves
    exact ⟨hstate', hext.trans hext'⟩
  | ISBack stateA =>
    rw [hs] at hleaves hfirst
    exact hfirst state' hleaves
  | ISErr e =>
    rw [hs] at hleaves
    cases hleaves

/-- A choice keeps the state when every alternative does. -/
theorem keeps_oneOf {solver : Solver Name α} {solvers : List (Solver Name α)}
    (h : ∀ s ∈ solver :: solvers, Keeps world start s) :
    Keeps world start (oneOf solver solvers) := by
  induction solvers generalizing solver with
  | nil => exact h solver (List.mem_cons_self ..)
  | cons s ss ih =>
    have hsolver := h solver (List.mem_cons_self ..)
    have hrest := ih fun t ht => h t (List.mem_cons_of_mem _ ht)
    intro state hstate state' hleaves
    have hfirst := hsolver state hstate
    rw [oneOf] at hleaves
    dsimp only at hleaves
    cases hs : solver state with
    | ISOk stateA a =>
      rw [hs] at hleaves hfirst
      exact hfirst state' hleaves
    | ISBack stateA =>
      rw [hs] at hleaves hfirst
      obtain ⟨hstateA, hext⟩ := hfirst stateA rfl
      obtain ⟨hstate', hext'⟩ := hrest stateA hstateA state' hleaves
      exact ⟨hstate', hext.trans hext'⟩
    | ISErr e =>
      rw [hs] at hleaves
      cases hleaves

/-- What `oneOf` answers, one of its alternatives does from a state that it comes to. -/
theorem oneOf_ok {solver : Solver Name α} {solvers : List (Solver Name α)}
    (h : ∀ s ∈ solver :: solvers, Keeps world start s) {state state' : State Name} {a : α}
    (hstate : Follows world start state) (hok : oneOf solver solvers state = .ISOk state' a) :
    ∃ s ∈ solver :: solvers, ∃ state0, Follows world start state0 ∧ Extends state state0 ∧
      s state0 = .ISOk state' a := by
  induction solvers generalizing solver state with
  | nil => exact ⟨solver, List.mem_cons_self .., state, hstate, .refl state, hok⟩
  | cons s ss ih =>
    have hfirst := h solver (List.mem_cons_self ..) state hstate
    rw [oneOf] at hok
    dsimp only at hok
    cases hs : solver state with
    | ISOk stateA b =>
      rw [hs] at hok
      cases hok
      exact ⟨solver, List.mem_cons_self .., state, hstate, .refl state, hs⟩
    | ISBack stateA =>
      rw [hs] at hok hfirst
      obtain ⟨hstateA, hext⟩ := hfirst stateA rfl
      obtain ⟨t, ht, state0, hstate0, hext0, heq⟩ :=
        ih (fun t ht => h t (List.mem_cons_of_mem _ ht)) hstateA hok
      exact ⟨t, List.mem_cons_of_mem _ ht, state0, hstate0, hext.trans hext0, heq⟩
    | ISErr e =>
      rw [hs] at hok
      cases hok

/-! ## The steps -/

/-- `addConstraint` is `Index.merge`, and leaves the state alone. -/
theorem addConstraint_eq (solved : Dict Name (Details Name)) (unsolved : Dict Name Constraint)
    (named : Name × Constraint) (state : State Name) :
    addConstraint solved unsolved named state =
      match Index.merge solved unsolved named with
      | some u => .ISOk state u
      | none => .ISBack state := by
  obtain ⟨name, c⟩ := named
  rw [addConstraint, Index.merge]
  dsimp only
  cases solved.get name with
  | some details =>
    dsimp only
    split <;> rfl
  | none =>
    dsimp only
    cases unsolved.get name with
    | none => rfl
    | some old =>
      dsimp only
      cases old.intersect c with
      | none => rfl
      | some merged =>
        dsimp only
        split <;> rfl

/-- The fold over a package's constraints merges them, or gives up. -/
theorem foldM_eq (solved : Dict Name (Details Name)) (l : List (Name × Constraint))
    (unsolved : Dict Name Constraint) (state : State Name) :
    foldM (addConstraint solved) unsolved l state =
      match Index.mergeAll solved unsolved l with
      | some u => .ISOk state u
      | none => .ISBack state := by
  -- the steps so far have answered or backtracked
  have hback : ∀ (l : List (Name × Constraint)) (solver : Solver Name (Dict Name Constraint)),
      solver state = .ISBack state →
      l.foldl (fun solver a => Solver.andThen (fun acc => addConstraint solved acc a) solver)
        solver state = .ISBack state := by
    intro l
    induction l with
    | nil => intro solver h; exact h
    | cons named rest ih =>
      intro solver h
      rw [List.foldl_cons]
      refine ih _ ?_
      rw [Solver.andThen, h]
  have hok : ∀ (l : List (Name × Constraint)) (solver : Solver Name (Dict Name Constraint))
      (u : Dict Name Constraint),
      solver state = .ISOk state u →
      l.foldl (fun solver a => Solver.andThen (fun acc => addConstraint solved acc a) solver)
        solver state = match Index.mergeAll solved u l with
          | some u => .ISOk state u
          | none => .ISBack state := by
    intro l
    induction l with
    | nil => intro solver u h; exact h
    | cons named rest ih =>
      intro solver u h
      have hstep : Solver.andThen (fun acc => addConstraint solved acc named) solver state =
          addConstraint solved u named state := by
        rw [Solver.andThen, h]
      rw [addConstraint_eq] at hstep
      rw [List.foldl_cons, Index.mergeAll]
      cases hm : Index.merge solved u named with
      | none =>
        rw [hm] at hstep
        exact hback rest _ hstep
      | some mid =>
        rw [hm] at hstep
        exact ih _ mid hstep
  exact hok l (pure unsolved) unsolved rfl

/-- Looking versions up changes nothing. -/
theorem keeps_getRelevantVersions (name : Name) (c : Constraint) :
    Keeps world start (getRelevantVersions name c) := by
  refine keeps_of_leaves fun state => ?_
  rw [getRelevantVersions]
  split
  · split <;> rfl
  · split
    · split <;> rfl
    · rfl

/-- What is found are the index's versions for the constraint, in order. -/
theorem getRelevantVersions_ok {name : Name} {c : Constraint} {state state' : State Name}
    {v : Version} {vs : List Version} (hstate : Follows world start state)
    (h : getRelevantVersions name c state = .ISOk state' (v, vs)) :
    state' = state ∧ v :: vs = (indexOf world start).candidates name c := by
  rw [Index.candidates, indexOf]
  dsimp only
  rw [offered, ← hstate.locals, ← hstate.registry]
  rw [getRelevantVersions] at h
  split at h
  · next hlocal =>
    rw [if_pos hlocal]
    split at h
    · cases h
    · next hfilter =>
      cases h
      exact ⟨rfl, hfilter.symm⟩
  · next hlocal =>
    rw [if_neg hlocal]
    cases hknown : state.registry.get name with
    | none =>
      rw [hknown] at h
      cases h
    | some known =>
      rw [hknown] at h
      dsimp only at h ⊢
      split at h
      · cases h
      · next hfilter =>
        cases h
        exact ⟨rfl, hfilter.symm⟩

/-- A load that backtracks leaves the state alone. -/
theorem loadConstraintsFromCacheOrNetwork_back {ctx : ConstraintLoadContext Name}
    {state' : State Name} {outlineExists : Bool}
    (h : loadConstraintsFromCacheOrNetwork world ctx outlineExists = .ISBack state') :
    state' = ctx.state := by
  simp only [loadConstraintsFromCacheOrNetwork, loadConstraintsFromCache,
    parseAndValidateCachedConstraints, validateCachedConstraints, loadConstraintsFromNetwork,
    fetchAndCacheConstraints, parseAndCacheConstraints] at h
  split at h
  · split at h
    · split at h
      · cases h
      · split at h
        · cases h
        · cases h
          rfl
    · split at h <;> cases h
  · split at h
    · cases h
      rfl
    · split at h
      · cases h
      · split at h <;> cases h

/-- A load that gives up changes nothing. -/
theorem loadConstraints_back {state state' : State Name} {pkg : Name} {vsn : Version}
    (h : loadConstraints world state pkg vsn = .ISBack state') : state' = state :=
  loadConstraintsFromCacheOrNetwork_back h

/-- A load that succeeds gives the constraints of the package's elm.json, and the state remembers
    them. -/
theorem Follows.elmJson_eq {state state' : State Name} (hstate : Follows world start state)
    {pkg : Name} {vsn : Version} {cs : Constraints Name}
    (h : loadConstraints world state pkg vsn = .ISOk state' cs) :
    elmJson world start pkg vsn = cs ∧ state' = state.remember pkg vsn cs := by
  have hfirst := loadConstraints_ok world hstate.locals.symm hstate.connection.symm h
  have hsame := loadConstraints_ok world rfl rfl h
  refine ⟨by rw [elmJson, hfirst], ?_⟩
  rw [h] at hsame
  cases hsame
  rfl

/-- A package version that is remembered anew was not remembered. -/
theorem extends_remember {state : State Name} {pkg : Name} {vsn : Version}
    (h : state.cDict.get (key pkg vsn) = none) (cs : Constraints Name) :
    Extends state (state.remember pkg vsn cs) := by
  intro k cs' hk
  rw [State.remember]
  dsimp only
  rw [Dict.get_insert_of_ne _ _]
  · exact hk
  · rintro rfl
    rw [h] at hk
    cases hk

/-- Reading a package's constraints keeps what is known. -/
theorem keeps_getConstraints (pkg : Name) (vsn : Version) :
    Keeps world start (getConstraints world pkg vsn) := by
  intro state hstate state' hleaves
  rw [getConstraints] at hleaves
  cases hget : state.cDict.get (key pkg vsn) with
  | some cs =>
    rw [hget] at hleaves
    cases hleaves
    exact ⟨hstate, .refl state⟩
  | none =>
    rw [hget] at hleaves
    dsimp only at hleaves
    cases hload : loadConstraints world state pkg vsn with
    | ISOk stateA cs =>
      rw [hload] at hleaves
      cases hleaves
      obtain ⟨hcs, rfl⟩ := hstate.elmJson_eq hload
      rw [← hcs]
      exact ⟨hstate.remember pkg vsn, extends_remember hget _⟩
    | ISBack stateA =>
      rw [hload] at hleaves
      cases hleaves
      rw [loadConstraints_back hload]
      exact ⟨hstate, .refl state⟩
    | ISErr e =>
      rw [hload] at hleaves
      cases hleaves

/-- The constraints that are got are those of the `elm.json`, and are remembered. -/
theorem getConstraints_ok {state state' : State Name} (hstate : Follows world start state)
    {pkg : Name} {vsn : Version} {cs : Constraints Name}
    (h : getConstraints world pkg vsn state = .ISOk state' cs) :
    cs = elmJson world start pkg vsn ∧ state'.cDict.get (key pkg vsn) = some cs := by
  rw [getConstraints] at h
  cases hget : state.cDict.get (key pkg vsn) with
  | some cs' =>
    rw [hget] at h
    cases h
    exact ⟨hstate.remembered pkg vsn _ hget, hget⟩
  | none =>
    rw [hget] at h
    obtain ⟨hcs, rfl⟩ := hstate.elmJson_eq h
    exact ⟨hcs.symm, Dict.get_insert_self ..⟩

/-- Adding a version keeps what is known. -/
theorem keeps_addVersion (goals : Goals Name) (name : Name) (version : Version) :
    Keeps world start (addVersion world goals name version) := by
  refine (keeps_getConstraints name version).andThen fun constraints => ?_
  split
  · refine Keeps.map (keeps_of_leaves fun state => ?_) _
    rw [foldM_eq]
    cases Index.mergeAll goals.solved goals.pending constraints.deps.toList <;> rfl
  · exact keeps_backtrack

/-- A version that is added is accepted, and its constraints are remembered. -/
theorem addVersion_ok {state state' : State Name} (hstate : Follows world start state)
    {goals goals2 : Goals Name} {name : Name} {version : Version}
    (h : addVersion world goals name version state = .ISOk state' goals2) :
    (indexOf world start).accept goals name version = some goals2 ∧
      ∃ cs, state'.cDict.get (key name version) = some cs := by
  rw [addVersion, Solver.andThen] at h
  cases hget : getConstraints world name version state with
  | ISBack stateA =>
    rw [hget] at h
    cases h
  | ISErr e =>
    rw [hget] at h
    cases h
  | ISOk stateA cs =>
    rw [hget] at h
    obtain ⟨rfl, hremembered⟩ := getConstraints_ok hstate hget
    dsimp only at h
    split at h
    · next helm =>
      have haccept : (indexOf world start).accept goals name version =
          (Index.mergeAll goals.solved goals.pending
            (elmJson world start name version).deps.toList).map fun pending =>
              ⟨pending, goals.solved.insert name
                ⟨version, (elmJson world start name version).deps⟩⟩ := if_pos helm
      rw [haccept]
      rw [Solver.map, foldM_eq] at h
      cases hm : Index.mergeAll goals.solved goals.pending
          (elmJson world start name version).deps.toList with
      | none =>
        rw [hm] at h
        cases h
      | some pending =>
        rw [hm] at h
        cases h
        exact ⟨rfl, _, hremembered⟩
    · cases h

/-- So does the whole search, whatever its fuel. -/
theorem keeps_exploreGoals (fuel : ℕ) (goals : Goals Name) :
    Keeps world start (exploreGoals world fuel goals) := by
  induction fuel generalizing goals with
  | zero => exact keeps_pure none
  | succ fuel ih =>
    rw [exploreGoals]
    split
    · exact keeps_pure _
    · next name c other _ =>
      refine Keeps.andThen ?_ fun goals2 => ih goals2
      refine (keeps_getRelevantVersions name c).andThen fun choice => keeps_oneOf ?_
      rintro s hs
      rw [← List.map_cons] at hs
      obtain ⟨w, -, rfl⟩ := List.mem_map.mp hs
      exact keeps_addVersion _ name w

/-! ## A search that answers -/

/-- One set of goals is come to from another by turns. -/
def Turns (index : Index Name) : Goals Name → Goals Name → Prop :=
  Relation.ReflTransGen fun goals goals2 => ∃ name version, index.Turn goals name version goals2

/-- The constraints of every version that is solved are remembered. -/
def Remembers (state : State Name) (solved : Dict Name (Details Name)) : Prop :=
  ∀ name d, solved.get name = some d → ∃ cs, state.cDict.get (key name d.version) = some cs

/-- What is remembered stays so. -/
theorem Remembers.extend {state state' : State Name} {solved : Dict Name (Details Name)}
    (h : Remembers state solved) (hext : Extends state state') : Remembers state' solved := by
  intro name d hd
  obtain ⟨cs, hcs⟩ := h name d hd
  exact ⟨cs, hext _ cs hcs⟩

/-- While something is pending, an answer is the answer of a search that is one turn further, and
    what the turn chose is remembered. -/
theorem exploreGoals_turn {fuel : ℕ} {goals : Goals Name} {state state' : State Name}
    {answer : Option (Dict Name (Details Name))} (hstate : Follows world start state)
    (hpending : ¬ Index.Done goals)
    (h : exploreGoals world (fuel + 1) goals state = .ISOk state' answer) :
    ∃ stateB goals2 name version, Follows world start stateB ∧ Extends state stateB ∧
      (indexOf world start).Turn goals name version goals2 ∧
      (∃ cs, stateB.cDict.get (key name version) = some cs) ∧
      exploreGoals world fuel goals2 stateB = .ISOk state' answer := by
  rw [exploreGoals] at h
  cases hview : dictMinViewWithKey goals.pending with
  | none => exact absurd (Index.view_eq_none_iff.mp hview) hpending
  | some view =>
    obtain ⟨⟨name, c⟩, other⟩ := view
    rw [hview] at h
    dsimp only at h
    rw [Solver.andThen, Solver.andThen] at h
    cases hversions : getRelevantVersions name c state with
    | ISBack stateA =>
      rw [hversions] at h
      cases h
    | ISErr e =>
      rw [hversions] at h
      cases h
    | ISOk stateA choice =>
      obtain ⟨v, vs⟩ := choice
      rw [hversions] at h
      dsimp only at h
      obtain ⟨rfl, hcandidates⟩ := getRelevantVersions_ok hstate hversions
      -- a version that is refused leaves a state that still follows the registry
      have hkeeps : ∀ s ∈ addVersion world { goals with pending := other } name v ::
          vs.map (addVersion world { goals with pending := other } name),
          Keeps world start s := by
        intro s hs
        rw [← List.map_cons] at hs
        obtain ⟨w, -, rfl⟩ := List.mem_map.mp hs
        exact keeps_addVersion _ name w
      have hone := keeps_oneOf hkeeps stateA hstate
      cases hres : oneOf (addVersion world { goals with pending := other } name v)
          (vs.map (addVersion world { goals with pending := other } name)) stateA with
      | ISBack stateB =>
        rw [hres] at h
        cases h
      | ISErr e =>
        rw [hres] at h
        cases h
      | ISOk stateB goals2 =>
        rw [hres] at h hone
        obtain ⟨hstateB, hext⟩ := hone stateB rfl
        obtain ⟨s, hs, state0, hstate0, -, hadd⟩ := oneOf_ok hkeeps hstate hres
        rw [← List.map_cons, hcandidates] at hs
        obtain ⟨w, hw, rfl⟩ := List.mem_map.mp hs
        obtain ⟨haccept, hcs⟩ := addVersion_ok hstate0 hadd
        exact ⟨stateB, goals2, name, w, hstateB, hext, Index.turn_of_accept hview hw haccept, hcs,
          h⟩

/-- With no goal left the search answers with what is solved. -/
theorem exploreGoals_of_done {fuel : ℕ} {goals : Goals Name} (h : Index.Done goals)
    (state : State Name) :
    exploreGoals world (fuel + 1) goals state = .ISOk state (some goals.solved) := by
  rw [exploreGoals, Index.view_eq_none_iff.mpr h]
  rfl

/-- An answer is come to by turns, and what they chose is remembered. -/
theorem exploreGoals_turns {fuel : ℕ} {goals : Goals Name} {state state' : State Name}
    {solved : Dict Name (Details Name)} (hstate : Follows world start state)
    (hremembers : Remembers state goals.solved)
    (h : exploreGoals world fuel goals state = .ISOk state' (some solved)) :
    Follows world start state' ∧ Remembers state' solved ∧
      ∃ last, Turns (indexOf world start) goals last ∧ Index.Done last ∧ last.solved = solved := by
  induction fuel generalizing goals state with
  | zero => cases h
  | succ fuel ih =>
    by_cases hdone : Index.Done goals
    · rw [exploreGoals_of_done hdone] at h
      cases h
      exact ⟨hstate, hremembers, goals, .refl, hdone, rfl⟩
    · obtain ⟨stateB, goals2, name, w, hstateB, hext, hturn, ⟨cs, hcs⟩, hrest⟩ :=
        exploreGoals_turn hstate hdone h
      have hremembersB : Remembers stateB goals2.solved := by
        intro k d hd
        rw [hturn.solved] at hd
        split at hd
        · next heq =>
          cases hd
          exact ⟨cs, heq ▸ hcs⟩
        · exact hremembers.extend hext k d hd
      obtain ⟨hstate', hremembers', last, hturns, hend, hlast⟩ := ih hstateB hremembersB hrest
      exact ⟨hstate', hremembers', last, .head ⟨name, w, hturn⟩ hturns, hend, hlast⟩

/-- A search goes on only where it has no more turns than there are left. -/
theorem exploreGoals_goesOn {fuel : ℕ} {goals : Goals Name} {state state' : State Name}
    (hstate : Follows world start state)
    (h : exploreGoals world fuel goals state = .ISOk state' none) :
    fuel ≤ (indexOf world start).left goals := by
  induction fuel generalizing goals state with
  | zero => exact Nat.zero_le _
  | succ fuel ih =>
    have hpending : ¬ Index.Done goals := by
      intro hdone
      rw [exploreGoals_of_done hdone] at h
      cases h
    obtain ⟨stateB, goals2, name, w, hstateB, -, hturn, -, hrest⟩ :=
      exploreGoals_turn hstate hpending h
    exact (ih hstateB hrest).trans_lt hturn.left_lt

/-- Enough turns for every search from a state: two for each package. -/
def turnsOf (state : State Name) : ℕ := 2 * (known state).card

/-- Only a search with too little fuel goes on. -/
theorem tryConstraints_goesOn {fuel : ℕ} {asked : Dict Name Constraint}
    {state state' : State Name} (hstate : Follows world start state)
    (h : tryConstraints world fuel asked state = .ISOk state' none) : fuel ≤ turnsOf start := by
  refine (exploreGoals_goesOn hstate h).trans ?_
  have hnone : ∀ name, (Dict.empty : Dict Name (Details Name)).get name = none := fun _ => rfl
  have hsolved : ((indexOf world start).known.filter fun n =>
      (Dict.empty : Dict Name (Details Name)).get n ≠ none ∧ asked.get n ≠ none) = ∅ :=
    Finset.filter_eq_empty_iff.mpr fun n _ h => h.1 (hnone n)
  rw [Index.left, hsolved, Finset.card_empty, Nat.add_zero, turnsOf]
  exact Nat.mul_le_mul_left 2 (Finset.card_filter_le _ _)

/-! ## What holds of the goals on the way -/

/-- A package that is solved or pending. -/
def Held (goals : Goals Name) (name : Name) : Prop :=
  goals.solved.get name ≠ none ∨ goals.pending.get name ≠ none

/-- What is asked for is held, and so is what a solved package needs. -/
structure Covered (asked : Dict Name Constraint) (goals : Goals Name) : Prop where
  asks : ∀ name, asked.get name ≠ none → Held goals name
  needs : ∀ m d name, goals.solved.get m = some d → d.deps.get name ≠ none → Held goals name

/-- A chosen version of the one package needs the other. -/
def Needs (world : World Name) (start : State Name) (new : Dict Name Version) (p q : Name) :
    Prop :=
  ∃ v, new.get p = some v ∧ (elmJson world start p v).deps.get q ≠ none

/-- No `elm.json` lists its own package. -/
def SelfFree (world : World Name) (start : State Name) : Prop :=
  ∀ pkg vsn, (elmJson world start pkg vsn).deps.get pkg = none

theorem get_solvedVersions (solved : Dict Name (Details Name)) (name : Name) :
    (solvedVersions solved).get name = (solved.get name).map Details.version := Dict.get_map ..

/-- Nothing is solved and pending at once; every constraint so far is met or pending; and
    every package was asked for, or needed by what was asked for. -/
structure Sound (world : World Name) (start : State Name) (asked : Dict Name Constraint)
    (goals : Goals Name) : Prop where
  apart : ∀ name, goals.solved.get name ≠ none → goals.pending.get name = none
  asks : ∀ name c, asked.get name = some c →
    Index.MetOrPending goals.solved goals.pending name c
  reached : ∀ name, Held goals name → ∃ a, asked.get a ≠ none ∧
    Relation.ReflTransGen (Needs world start (solvedVersions goals.solved)) a name

section

variable {asked : Dict Name Constraint} {goals goals2 : Goals Name} {name : Name}
  {version : Version}

/-- A turn keeps every held name. -/
theorem turn_held (h : (indexOf world start).Turn goals name version goals2) {k : Name}
    (hk : Held goals k) : Held goals2 k := by
  by_cases hkn : k = name
  · refine Or.inl ?_
    rw [h.solved, if_pos hkn]
    exact Option.some_ne_none _
  · rcases hk with hk | hk
    · refine Or.inl ?_
      rwa [h.solved, if_neg hkn]
    · obtain ⟨c, hc⟩ := Option.ne_none_iff_exists'.mp hk
      obtain ⟨c', hc', -⟩ := h.tightens k c hkn hc
      refine Or.inr ?_
      rw [hc']
      exact Option.some_ne_none c'

/-- A turn keeps what was asked covered. -/
theorem turn_covered (h : (indexOf world start).Turn goals name version goals2)
    (hc : Covered asked goals) : Covered asked goals2 := by
  refine ⟨fun k hk => turn_held h (hc.asks k hk), fun m d k hm hk => ?_⟩
  rw [h.solved] at hm
  split at hm
  · cases hm
    obtain ⟨c, hget⟩ := Option.ne_none_iff_exists'.mp hk
    rcases h.met k c hget with ⟨d', hd', -⟩ | ⟨-, c', hc', -⟩
    · refine turn_held h (Or.inl ?_)
      rw [hd']
      exact Option.some_ne_none d'
    · refine Or.inr ?_
      rw [hc']
      exact Option.some_ne_none c'
  · exact turn_held h (hc.needs m d k hm hk)

/-- With nothing pending twice, what is solved stays as it is. -/
theorem turn_versions (h : (indexOf world start).Turn goals name version goals2)
    (hs : Sound world start asked goals) {k : Name} {v : Version}
    (hk : (solvedVersions goals.solved).get k = some v) :
    (solvedVersions goals2.solved).get k = some v := by
  rw [get_solvedVersions] at hk ⊢
  obtain ⟨d, hd, rfl⟩ := Option.map_eq_some_iff.mp hk
  have hkn : k ≠ name := by
    rintro rfl
    obtain ⟨c, hc, -⟩ := h.pending
    have hnone := hs.apart k (by rw [hd]; exact Option.some_ne_none d)
    rw [hc] at hnone
    cases hnone
  rw [h.solved, if_neg hkn, hd]
  rfl

/-- A turn keeps the goals sound. -/
theorem turn_sound (hself : SelfFree world start)
    (h : (indexOf world start).Turn goals name version goals2)
    (hs : Sound world start asked goals) : Sound world start asked goals2 := by
  obtain ⟨c, hpending, hsat⟩ := h.pending
  have hfresh : goals.solved.get name = none := by
    by_contra hne
    have hnone := hs.apart name hne
    rw [hpending] at hnone
    cases hnone
  -- the package of the turn is not pending again
  have hname : goals2.pending.get name = none := by
    by_contra hne
    rcases h.fresh name hne with ⟨hne', -⟩ | ⟨-, hdep⟩
    · exact hne' rfl
    · exact hdep (hself name version)
  refine ⟨fun k hk => ?_, fun k ck hk => ?_, fun k hk => ?_⟩
  · by_cases hkn : k = name
    · rw [hkn]
      exact hname
    · rw [h.solved, if_neg hkn] at hk
      by_contra hne
      rcases h.fresh k hne with ⟨-, hne'⟩ | ⟨hnone, -⟩
      · exact hne' (hs.apart k hk)
      · exact hk hnone
  · rcases hs.asks k ck hk with ⟨d, hd, hmet⟩ | ⟨hnone, c', hc', himp⟩
    · have hkn : k ≠ name := by
        rintro rfl
        rw [hfresh] at hd
        cases hd
      exact Or.inl ⟨d, by rw [h.solved, if_neg hkn, hd], hmet⟩
    · by_cases hkn : k = name
      · subst hkn
        rw [hpending] at hc'
        cases hc'
        exact Or.inl ⟨_, by rw [h.solved, if_pos rfl], himp version hsat⟩
      · obtain ⟨c'', hc'', himp'⟩ := h.tightens k c' hkn hc'
        exact Or.inr ⟨by rw [h.solved, if_neg hkn, hnone], c'', hc'', himp'.trans himp⟩
  · have hstays : ∀ m, Held goals m → ∃ a, asked.get a ≠ none ∧
        Relation.ReflTransGen (Needs world start (solvedVersions goals2.solved)) a m := by
      intro m hm
      obtain ⟨a, ha, hreach⟩ := hs.reached m hm
      refine ⟨a, ha, Relation.ReflTransGen.mono ?_ a m hreach⟩
      rintro p q ⟨v, hv, hq⟩
      exact ⟨v, turn_versions h hs hv, hq⟩
    have hheld : Held goals name := Or.inr (by rw [hpending]; exact Option.some_ne_none c)
    rcases hk with hk | hk
    · rw [h.solved] at hk
      split at hk
      · next heq => exact heq ▸ hstays name hheld
      · exact hstays k (Or.inl hk)
    · rcases h.fresh k hk with ⟨-, hk⟩ | ⟨-, hdep⟩
      · exact hstays k (Or.inr hk)
      · obtain ⟨a, ha, hreach⟩ := hstays name hheld
        refine ⟨a, ha, hreach.tail ⟨version, ?_, hdep⟩⟩
        rw [get_solvedVersions, h.solved, if_pos rfl]
        rfl

/-- Any number of turns keep what was asked covered. -/
theorem turns_covered (h : Turns (indexOf world start) goals goals2)
    (hc : Covered asked goals) : Covered asked goals2 := by
  induction h with
  | refl => exact hc
  | tail _ hturn ih =>
    obtain ⟨name, version, hturn⟩ := hturn
    exact turn_covered hturn ih

/-- Any number of turns keep the goals sound. -/
theorem turns_sound (hself : SelfFree world start)
    (h : Turns (indexOf world start) goals goals2) (hs : Sound world start asked goals) :
    Sound world start asked goals2 := by
  induction h with
  | refl => exact hs
  | tail _ hturn ih =>
    obtain ⟨name, version, hturn⟩ := hturn
    exact turn_sound hself hturn ih

/-- Any number of turns keep every pick among the versions offered. -/
theorem turns_offered (h : Turns (indexOf world start) goals goals2)
    (ho : (indexOf world start).Offered goals) : (indexOf world start).Offered goals2 := by
  induction h with
  | refl => exact ho
  | tail _ hturn ih =>
    obtain ⟨name, version, hturn⟩ := hturn
    exact hturn.offered_kept ih

end

/-- What a search that answers gives: the versions chosen, whose constraints the state
    remembers, for all that is asked for and all that they need. -/
structure IsSolved (world : World Name) (start state : State Name) (asked : Dict Name Constraint)
    (new : Dict Name Version) : Prop where
  remembered : ∀ name v, new.get name = some v →
    state.cDict.get (key name v) = some (elmJson world start name v)
  asks : ∀ name, asked.get name ≠ none → new.get name ≠ none
  needs : ∀ p q, Needs world start new p q → new.get q ≠ none
  asks_met : SelfFree world start → ∀ name c, asked.get name = some c →
    ∃ v, new.get name = some v ∧ c.satisfies v = true
  reached : SelfFree world start → ∀ name, new.get name ≠ none → ∃ a, asked.get a ≠ none ∧
    Relation.ReflTransGen (Needs world start new) a name

/-- What `tryConstraints` answers is solved, from any state of the search. -/
theorem tryConstraints_solution {fuel : ℕ} {asked : Dict Name Constraint}
    {state state' : State Name} {solved : Dict Name (Details Name)}
    (hstate : Follows world start state)
    (h : tryConstraints world fuel asked state = .ISOk state' (some solved)) :
    IsSolved world start state' asked (solvedVersions solved) := by
  have hnothing : Remembers state (Dict.empty : Dict Name (Details Name)) := fun _ _ h =>
    (by cases h)
  obtain ⟨hstate', hremembers, last, hturns, hdone, rfl⟩ := exploreGoals_turns hstate hnothing h
  have hnone : ∀ k, last.pending.get k = none := Dict.get_of_toList_nil hdone
  -- asked for, and needed by what is solved: held at every turn, solved at the end
  have hcovered : Covered asked last := by
    refine turns_covered hturns ⟨fun k hk => Or.inr hk, fun m d k hm => ?_⟩
    cases hm
  have hoffered : (indexOf world start).Offered last := by
    refine turns_offered hturns fun k d hk => ?_
    cases hk
  have hsolved : ∀ k, Held last k → (solvedVersions last.solved).get k ≠ none := by
    intro k hk
    rcases hk with hk | hk
    · obtain ⟨d, hd⟩ := Option.ne_none_iff_exists'.mp hk
      rw [get_solvedVersions, hd]
      exact Option.some_ne_none _
    · exact absurd (hnone k) hk
  -- that constraints are met is kept only where no package depends on itself
  have hsound : SelfFree world start → Sound world start asked last := by
    intro hself
    refine turns_sound hself hturns ⟨fun k hk => absurd rfl hk, fun k c hk => ?_, fun k hk => ?_⟩
    · exact Or.inr ⟨rfl, c, hk, Index.Implies.refl c⟩
    · rcases hk with hk | hk
      · exact absurd rfl hk
      · exact ⟨k, hk, .refl⟩
  refine ⟨?_, fun k hk => hsolved k (hcovered.asks k hk), ?_, fun hself k c hk => ?_,
    fun hself k hk => ?_⟩
  · intro k v hk
    rw [get_solvedVersions] at hk
    obtain ⟨d, hd, rfl⟩ := Option.map_eq_some_iff.mp hk
    obtain ⟨cs, hcs⟩ := hremembers k d hd
    rw [hcs, hstate'.remembered k d.version cs hcs]
  · rintro p q ⟨v, hv, hq⟩
    rw [get_solvedVersions] at hv
    obtain ⟨d, hd, rfl⟩ := Option.map_eq_some_iff.mp hv
    refine hsolved q (hcovered.needs p d q hd ?_)
    rw [(hoffered p d hd).2]
    exact hq
  · rcases (hsound hself).asks k c hk with ⟨d, hd, hmet⟩ | ⟨-, c', hc', -⟩
    · exact ⟨d.version, by rw [get_solvedVersions, hd]; rfl, hmet⟩
    · rw [hnone] at hc'
      cases hc'
  · refine (hsound hself).reached k (Or.inl ?_)
    intro hnot
    rw [get_solvedVersions, hnot] at hk
    exact hk rfl

end Solver

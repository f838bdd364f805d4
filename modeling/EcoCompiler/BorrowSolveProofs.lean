import EcoCompiler.BorrowSolve
import EcoCompiler.Saturation

/-! # The borrow solver finds the least solution

    * `view`, `view_seeded` — the values of an array, with a bottom outside it, and seeding them;
    * `Sweeps`, `Sweeps.view_fix` — sweeps over arrays are the sweeps of `Saturation`;
    * `sweeps_lifetimes`, `sweeps_alpha`, `sweeps_access`, `sweeps_ltP` — the four fixpoints;
    * `LifetimeRules`, `AlphaRules`, `AccessRules`, `LtPRules` — what the constraints ask for;
    * `storageOwned_iff` — a class is owned-storing where a member is forced owned;
    * `solve_least` — no fixpoint is cut short, and each finds the least solution;
    * `ltAOf_le_iff`, `mem_alphaOf_iff`, `storageOwnedOf_iff`, `reifiedOwned_iff` — what the answers
      of the queries mean. -/

namespace Borrow

open IntArray (Inside get set)
open Saturation (Reaches Settled sweep saturate)

/-! ## Arrays as values of variables -/

section

variable {α : Type} {n : ℕ} {bot : α} {arr : List α} {r : ℤ}

/-- The value of each variable, the bottom outside the array. -/
def view (bot : α) (arr : List α) (r : ℤ) : α := (get r arr).getD bot

/-- A write inside the array updates the view at its index. -/
theorem view_set (hr : Inside arr.length r) (x : α) :
    view bot (set r x arr) = Function.update (view bot arr) r x := by
  funext i
  rw [view, IntArray.get_set hr, Function.update_apply]
  split_ifs
  · rfl
  · rfl

/-- The array the solver starts from is seen as the least element everywhere. -/
theorem view_repeated (n : ℕ) (bot : α) (r : ℤ) : view bot (IntArray.repeated n bot) r = bot := by
  rw [view]
  by_cases hr : Inside n r
  · rw [IntArray.get_repeated hr]
    rfl
  · rw [IntArray.get_eq_none (by rw [IntArray.length_repeated]; exact hr)]
    rfl

/-- Writes what `put` makes of the value there and of the seed. -/
def seedInto {β : Type} (bot : α) (put : α → β → α) (arr : List α) (e : ℤ × β) : List α :=
  set e.1 (put (view bot arr e.1) e.2) arr

variable [Preorder α]

/-- The seeded values are the least ones that hold every seed. -/
theorem view_seeded {β : Type} (bot : α) {put : α → β → α} {holds : β → α → Prop}
    (hput : ∀ a x b, put a x ≤ b ↔ a ≤ b ∧ holds x b) {seeds : List (ℤ × β)}
    (hseeds : ∀ e ∈ seeds, Inside n e.1) (harr : arr.length = n) (w : ℤ → α) :
    view bot (seeds.foldl (seedInto bot put) arr) ≤ w ↔
      view bot arr ≤ w ∧ ∀ e ∈ seeds, holds e.2 (w e.1) := by
  induction seeds generalizing arr with
  | nil => simp
  | cons e seeds ih =>
    obtain ⟨he, hseeds⟩ := List.forall_mem_cons.mp hseeds
    have hlen : (seedInto bot put arr e).length = n := by rw [seedInto, IntArray.length_set, harr]
    rw [List.foldl_cons, ih hseeds hlen, List.forall_mem_cons, ← and_assoc, seedInto,
      view_set (by rw [harr]; exact he), update_le_iff, hput]
    refine and_congr ?_ Iff.rfl
    constructor
    · rintro ⟨⟨hle, hholds⟩, hrest⟩
      refine ⟨fun r => ?_, hholds⟩
      by_cases hr : r = e.1
      · rw [hr]
        exact hle
      · exact hrest r hr
    · rintro ⟨hle, hholds⟩
      exact ⟨⟨hle e.1, hholds⟩, fun r _ => hle r⟩

omit [Preorder α] in
/-- Seeding keeps the array's length. -/
theorem length_seeded {β : Type} (bot : α) (put : α → β → α) (seeds : List (ℤ × β)) (arr : List α) :
    (seeds.foldl (seedInto bot put) arr).length = arr.length := by
  induction seeds generalizing arr with
  | nil => rfl
  | cons e seeds ih => rw [List.foldl_cons, ih, seedInto, IntArray.length_set]

variable [DecidableLE α] (join : α → α → α)

/-- One edge of a sweep over an array: the target absorbs the source. -/
def absorbInto (bot : α) (accCh : List α × Bool) (e : ℤ × ℤ) : List α × Bool :=
  if view bot accCh.1 e.2 ≤ view bot accCh.1 e.1 then accCh
  else (set e.1 (join (view bot accCh.1 e.1) (view bot accCh.1 e.2)) accCh.1, true)

/-- A sweep that has changed something keeps saying so. -/
theorem foldl_absorbInto_true (edges : List (ℤ × ℤ)) (arr : List α) :
    (edges.foldl (absorbInto join bot) (arr, true)).2 = true := by
  induction edges generalizing arr with
  | nil => rfl
  | cons e edges ih =>
    rw [List.foldl_cons, absorbInto]
    split_ifs
    · exact ih arr
    · exact ih _

/-- One edge of a sweep is the library's `absorb` on what is seen. -/
theorem view_absorbInto (bot : α) {e : ℤ × ℤ} (he : Inside n e.1) (harr : arr.length = n)
    (ch : Bool) :
    (absorbInto join bot (arr, ch) e).1.length = n ∧
      view bot (absorbInto join bot (arr, ch) e).1
        = Saturation.absorb join (view bot arr) e := by
  rw [absorbInto, Saturation.absorb]
  split_ifs
  · exact ⟨harr, rfl⟩
  · exact ⟨by rw [IntArray.length_set, harr], view_set (by rwa [harr]) _⟩

/-- All edges of a sweep are the library's `sweep` on what is seen. -/
theorem view_foldl_absorbInto (bot : α) {edges : List (ℤ × ℤ)} (hedges : ∀ e ∈ edges, Inside n e.1)
    (harr : arr.length = n) (ch : Bool) :
    (edges.foldl (absorbInto join bot) (arr, ch)).1.length = n ∧
      view bot (edges.foldl (absorbInto join bot) (arr, ch)).1
        = sweep join edges (view bot arr) := by
  induction edges generalizing arr ch with
  | nil => exact ⟨harr, rfl⟩
  | cons e edges ih =>
    obtain ⟨he, hedges⟩ := List.forall_mem_cons.mp hedges
    obtain ⟨hlen, hview⟩ := view_absorbInto join bot he harr ch
    rw [List.foldl_cons, sweep, List.foldl_cons, ← hview]
    exact ih hedges hlen _

/-- Nothing is changed exactly where no edge has anything to do. -/
theorem foldl_absorbInto_false {edges : List (ℤ × ℤ)} (arr : List α) :
    (edges.foldl (absorbInto join bot) (arr, false)).2 = false ↔ Settled edges (view bot arr) := by
  induction edges with
  | nil => exact iff_of_true rfl (by simp [Settled])
  | cons e edges ih =>
    rw [List.foldl_cons, Settled, List.forall_mem_cons, absorbInto]
    split_ifs with h
    · rw [and_iff_right h]
      exact ih
    · rw [foldl_absorbInto_true]
      exact iff_of_false Bool.true_eq_false.mp (fun hall => h hall.1)

/-- A sweep over arrays whose changes are those of the edges. -/
structure Sweeps (n : ℕ) (bot : α) (edges : List (ℤ × ℤ)) (step : List α → List α × Bool) :
    Prop where
  inside : ∀ e ∈ edges, Inside n e.1 ∧ Inside n e.2
  fold : ∀ arr, arr.length = n → step arr = edges.foldl (absorbInto join bot) (arr, false)

/-- A sweep within the budget changes nothing. -/
def StopsWithin (step : List α → List α × Bool) (arr : List α) (budget : ℕ) : Prop :=
  ∃ k < budget, (step ((fun arr => (step arr).1)^[k] arr)).2 = false

variable {join} {edges : List (ℤ × ℤ)} {step : List α → List α × Bool}

/-- One step of an iteration is a sweep over its edges. -/
theorem Sweeps.view_step (h : Sweeps join n bot edges step) (harr : arr.length = n) :
    (step arr).1.length = n ∧ view bot (step arr).1 = sweep join edges (view bot arr) := by
  rw [h.fold arr harr]
  exact view_foldl_absorbInto join bot (fun e he => (h.inside e he).1) harr false

/-- A step says that nothing changed exactly when every edge is settled. -/
theorem Sweeps.step_false (h : Sweeps join n bot edges step) (harr : arr.length = n) :
    (step arr).2 = false ↔ Settled edges (view bot arr) := by
  rw [h.fold arr harr]
  exact foldl_absorbInto_false join arr

/-- So many steps are so many sweeps. -/
theorem Sweeps.view_iterate (h : Sweeps join n bot edges step) (harr : arr.length = n) (k : ℕ) :
    ((fun arr => (step arr).1)^[k] arr).length = n ∧
      view bot ((fun arr => (step arr).1)^[k] arr) = (sweep join edges)^[k] (view bot arr) := by
  induction k with
  | zero => exact ⟨harr, rfl⟩
  | succ k ih =>
    obtain ⟨hlen, hview⟩ := ih
    rw [Function.iterate_succ_apply', Function.iterate_succ_apply', ← hview]
    exact h.view_step hlen

/-- A fixpoint over arrays is the saturation of the edges. -/
theorem Sweeps.view_fix (h : Sweeps join n bot edges step) (harr : arr.length = n) (budget : ℕ) :
    view bot (fix step arr budget) = saturate join edges budget (view bot arr) := by
  induction budget generalizing arr with
  | zero => rfl
  | succ budget ih =>
    obtain ⟨hlen, hview⟩ := h.view_step harr
    rw [fix, saturate]
    dsimp only
    by_cases hsettled : Settled edges (view bot arr)
    · rw [(h.step_false harr).mpr hsettled, if_pos hsettled, if_neg Bool.false_ne_true, hview]
      exact Saturation.sweep_of_settled hsettled
    · have hch : (step arr).2 = true := by
        rw [← Bool.not_eq_false, h.step_false harr]
        exact hsettled
      rw [hch, if_pos rfl, if_neg hsettled, ih hlen, hview]

/-- The variables. -/
def vars (n : ℕ) : Finset ℤ := (Finset.range n).map Nat.castEmbedding

theorem card_vars (n : ℕ) : (vars n).card = n := by
  rw [vars, Finset.card_map, Finset.card_range]

theorem mem_vars {i : ℤ} (h : Inside n i) : i ∈ vars n := by
  obtain ⟨hpos, hlt⟩ := h
  exact Finset.mem_map.mpr ⟨i.toNat, Finset.mem_range.mpr (by omega), Int.toNat_of_nonneg hpos⟩

theorem Sweeps.mem_vars (h : Sweeps join n bot edges step) :
    ∀ e ∈ edges, e.1 ∈ vars n ∧ e.2 ∈ vars n :=
  fun e he => ⟨Borrow.mem_vars (h.inside e he).1, Borrow.mem_vars (h.inside e he).2⟩

variable (hjoin : ∀ a b, IsLUB {a, b} (join a b)) {budget : ℕ}

include hjoin

/-- Within as many steps as there are variables an iteration stops. -/
theorem Sweeps.stopsWithin (h : Sweeps join n bot edges step) (harr : arr.length = n)
    (hpos : 0 < budget) (hb : n ≤ budget) : StopsWithin step arr budget := by
  obtain ⟨k, hk, -, hsettled⟩ := Saturation.saturate_stops hjoin h.mem_vars (view bot arr) hpos
    (by rw [card_vars]; exact hb)
  obtain ⟨hlen, hview⟩ := h.view_iterate harr k
  exact ⟨k, hk, (h.step_false hlen).mpr (by rw [hview]; exact hsettled)⟩

/-- It stops at the least assignment above its seeds that settles every edge. -/
theorem Sweeps.isLeast (h : Sweeps join n bot edges step) (harr : arr.length = n)
    (hpos : 0 < budget) (hb : n ≤ budget) :
    IsLeast {w | view bot arr ≤ w ∧ Settled edges w} (view bot (fix step arr budget)) := by
  rw [h.view_fix harr]
  exact Saturation.isLeast_saturate hjoin h.mem_vars _ hpos (by rw [card_vars]; exact hb)

/-- That assignment lies below a bound exactly when all the seeds that reach the variable do. -/
theorem Sweeps.fix_le_iff (h : Sweeps join n bot edges step) (harr : arr.length = n)
    (hpos : 0 < budget) (hb : n ≤ budget) (r : ℤ) (b : α) :
    view bot (fix step arr budget) r ≤ b ↔ ∀ j, Reaches edges r j → view bot arr j ≤ b := by
  rw [h.view_fix harr]
  exact Saturation.saturate_le_iff hjoin h.mem_vars _ hpos (by rw [card_vars]; exact hb) b

end

/-! ## The four fixpoints -/

theorem lub_self (a : Mode) : lub a a = a := by
  cases a <;> rfl

theorem lub_trans (a b c : Mode) (hab : lub a b = b) (hbc : lub b c = c) : lub a c = c := by
  revert hab hbc
  cases a <;> cases b <;> cases c <;> decide

instance : Preorder Mode where
  le a b := lub a b = b
  le_refl := lub_self
  le_trans := lub_trans

instance : DecidableLE Mode := fun a b => inferInstanceAs (Decidable (lub a b = b))

/-- `lub` is the least upper bound of two modes. -/
theorem isLUB_lub (a b : Mode) : IsLUB {a, b} (lub a b) := by
  constructor
  · intro c hc
    rcases hc with rfl | rfl
    · show lub c (lub c b) = lub c b
      cases c <;> cases b <;> rfl
    · show lub c (lub a c) = lub a c
      cases a <;> cases c <;> rfl
  · intro c hc
    have ha : lub a c = c := hc (Set.mem_insert a {b})
    have hb : lub b c = c := hc (Set.mem_insert_of_mem a (Set.mem_singleton b))
    show lub (lub a b) c = c
    cases a with
    | Borrowed => cases b <;> exact hb
    | Owned => exact ha

/-- The union is the least upper bound of two sets. -/
theorem isLUB_union (a b : Finset ℤ) : IsLUB {a, b} (a ∪ b) := isLUB_pair

theorem borrowed_le (m : Mode) : .Borrowed ≤ m := by
  show lub .Borrowed m = m
  cases m <;> rfl

/-- The solver's test for a subset is the order of sets. -/
theorem subsetOf_iff {small big : Finset ℤ} : subsetOf small big = true ↔ small ≤ big := by
  rw [subsetOf, decide_eq_true_eq]
  rfl

section

variable {n : ℕ} {cs : Constraints}

/-- The sweep of the lifetimes follows the flows. -/
theorem sweeps_lifetimes {flows : List (ResVar × ResVar)}
    (hflows : ∀ e ∈ flows, Inside n e.1 ∧ Inside n e.2) :
    Sweeps join n .LEmpty flows (sweepLifetimes flows) :=
  ⟨hflows, fun _ _ => rfl⟩

/-- The sweep of the parameters follows the flows backwards. -/
theorem sweeps_alpha {flows : List (ResVar × ResVar)}
    (hflows : ∀ e ∈ flows, Inside n e.1 ∧ Inside n e.2) :
    Sweeps (· ∪ ·) n ∅ (flows.map Prod.swap) (sweepAlpha flows) := by
  constructor
  · intro e he
    obtain ⟨f, hf, rfl⟩ := List.mem_map.mp he
    exact (hflows f hf).symm
  · intro arr _
    rw [List.foldl_map, sweepAlpha]
    congr 1
    funext accCh e
    obtain ⟨acc, ch⟩ := accCh
    obtain ⟨b, u⟩ := e
    show (if subsetOf (arrAlphaGet b acc) (arrAlphaGet u acc) = true then _ else _) = _
    rw [absorbInto]
    exact if_congr subsetOf_iff rfl rfl

/-- The flows to a borrowed use, and the reads of a borrowed value out of an owned container. -/
def ltPEdges (cs : Constraints) (access : List Mode) : List (ℤ × ℤ) :=
  cs.flows.filter (fun e => accGet e.2 access = .Borrowed) ++
    cs.gets.flatMap fun get => get.out.filter fun e =>
      accGet e.1 access = .Owned ∧ accGet e.2 access = .Borrowed

/-- The sweep of the lower lifetimes runs over the borrowed flows and the reads out of
    containers. -/
theorem sweeps_ltP (access : List Mode) (hflows : ∀ e ∈ cs.flows, Inside n e.1 ∧ Inside n e.2)
    (hgets : ∀ g ∈ cs.gets, ∀ e ∈ g.out, Inside n e.1 ∧ Inside n e.2) :
    Sweeps join n .LEmpty (ltPEdges cs access) (sweepLtP cs access) := by
  constructor
  · intro e he
    rcases List.mem_append.mp he with he | he
    · exact hflows e (List.mem_filter.mp he).1
    · obtain ⟨g, hg, he⟩ := List.mem_flatMap.mp he
      exact hgets g hg e (List.mem_filter.mp he).1
  · intro arr _
    rw [ltPEdges, List.foldl_append, List.foldl_filter, List.foldl_flatMap, sweepLtP]
    simp only [List.foldl_filter, decide_eq_true_eq]
    rfl

/-- A binding absorbs its use, and a use that escapes absorbs its binding. -/
def accessEdges (cs : Constraints) (ltA : List Lifetime) : List (ℤ × ℤ) :=
  cs.flows.flatMap fun e => e :: if escapes cs ltA e.1 e.2 then [e.swap] else []

theorem lub_eq_left_iff {a b : Mode} : lub a b = a ↔ b ≤ a := by
  show lub a b = a ↔ lub b a = a
  cases a <;> cases b <;> decide

/-- The edges of a flow, one after the other, are what the sweep does for it. -/
theorem accessStep_eq {acc : List Mode} {b u : ResVar} (ltA : List Lifetime) (ch : Bool)
    (hb : Inside acc.length b) : accessStep cs ltA (acc, ch) (b, u) =
      (((b, u) :: if escapes cs ltA b u then [(u, b)] else []).foldl
        (absorbInto lub .Borrowed) (acc, ch)) := by
  have hview : ∀ r acc, view .Borrowed acc r = accGet r acc := fun _ _ => rfl
  rw [accessStep, List.foldl_cons, absorbInto]
  simp only [hview]
  by_cases hle : accGet u acc ≤ accGet b acc
  · -- the binding stays as it is, and the use takes what the binding has
    have hnew := lub_eq_left_iff.mpr hle
    rw [if_pos hnew, if_pos hle, hnew]
    by_cases hesc : escapes cs ltA b u = true
    · rw [if_pos hesc, if_pos hesc, List.foldl_cons, List.foldl_nil, absorbInto]
      exact if_congr lub_eq_left_iff rfl rfl
    · rw [if_neg hesc, if_neg hesc, List.foldl_nil, if_pos rfl]
  · -- the use is owned, and so it takes nothing
    have hnew := mt lub_eq_left_iff.mp hle
    have hu : accGet u acc = .Owned := by
      cases hu : accGet u acc with
      | Owned => rfl
      | Borrowed => exact absurd (hu ▸ borrowed_le _) hle
    have hne : u ≠ b := by
      rintro rfl
      exact hle (le_refl _)
    have hu' : accGet u (set b (lub (accGet b acc) .Owned) acc) = .Owned := by
      rw [accGet, IntArray.get_set_of_ne hne]
      exact hu
    rw [if_neg hnew, if_neg hle, hu, lub, if_pos (by split_ifs <;> rfl)]
    split_ifs with hesc
    · rw [List.foldl_cons, List.foldl_nil, absorbInto, if_pos]
      show lub _ _ = _
      simp only [hview]
      rw [hu']
      cases accGet b _ <;> rfl
    · rfl

/-- What the sweep does for the flows is what their edges do. -/
theorem foldl_accessStep (ltA : List Lifetime) {flows : List (ResVar × ResVar)}
    (hflows : ∀ e ∈ flows, Inside n e.1 ∧ Inside n e.2) {acc : List Mode} (hacc : acc.length = n)
    (ch : Bool) : flows.foldl (accessStep cs ltA) (acc, ch) =
      flows.foldl (fun accCh e =>
        (e :: if escapes cs ltA e.1 e.2 then [e.swap] else []).foldl
          (absorbInto lub .Borrowed) accCh) (acc, ch) := by
  induction flows generalizing acc ch with
  | nil => rfl
  | cons e flows ih =>
    obtain ⟨he, hflows⟩ := List.forall_mem_cons.mp hflows
    have hedges : ∀ f ∈ e :: if escapes cs ltA e.1 e.2 then [e.swap] else [], Inside n f.1 := by
      intro f hf
      rcases List.mem_cons.mp hf with rfl | hf
      · exact he.1
      · split_ifs at hf
        · rw [List.mem_singleton.mp hf]
          exact he.2
        · cases hf
    have hlen := (view_foldl_absorbInto lub .Borrowed hedges hacc ch).1
    have hstep : accessStep cs ltA (acc, ch) e = _ := accessStep_eq ltA ch
      (by rw [hacc]; exact he.1)
    rw [List.foldl_cons, List.foldl_cons, hstep]
    exact ih hflows hlen _

/-- The sweep of the modes runs over the flows, and back over those whose use escapes. -/
theorem sweeps_access (ltA : List Lifetime)
    (hflows : ∀ e ∈ cs.flows, Inside n e.1 ∧ Inside n e.2) :
    Sweeps lub n .Borrowed (accessEdges cs ltA) (sweepAccess cs ltA) := by
  constructor
  · intro e he
    obtain ⟨f, hf, he⟩ := List.mem_flatMap.mp he
    rcases List.mem_cons.mp he with rfl | he
    · exact hflows e hf
    · split_ifs at he
      · rw [List.mem_singleton.mp he]
        exact (hflows f hf).symm
      · cases he
  · intro arr harr
    rw [accessEdges, List.foldl_flatMap, sweepAccess]
    exact foldl_accessStep ltA hflows harr false

end

/-! ## What the constraints ask for -/

/-- All resources of the constraints are among the first `n`. -/
structure Constraints.Over (n : ℕ) (cs : Constraints) : Prop where
  flows : ∀ e ∈ cs.flows, Inside n e.1 ∧ Inside n e.2
  gets : ∀ g ∈ cs.gets, ∀ e ∈ g.out, Inside n e.1 ∧ Inside n e.2
  storageEq : ∀ e ∈ cs.storageEq, Inside n e.1 ∧ Inside n e.2
  seeds : ∀ e ∈ cs.seeds, Inside n e.1
  forcedOwned : ∀ e ∈ cs.forcedOwned, Inside n e.1
  paramSeeds : ∀ e ∈ cs.paramSeeds, Inside n e.1

/-- A resource lives until its seeds, and a binding as long as its uses. -/
structure LifetimeRules (cs : Constraints) (v : ResVar → Lifetime) : Prop where
  seeds : ∀ e ∈ cs.seeds, fromPath e.2 ≤ v e.1
  flows : ∀ f ∈ cs.flows, v f.2 ≤ v f.1

/-- A parameter reaches the resources it seeds, and with a binding its uses. -/
structure AlphaRules (cs : Constraints) (v : ResVar → Finset ℤ) : Prop where
  seeds : ∀ e ∈ cs.paramSeeds, e.2 ∈ v e.1
  flows : ∀ f ∈ cs.flows, v f.1 ⊆ v f.2

/-- In one storage class: linked by storage equalities and flows. -/
def Shares (cs : Constraints) : ResVar → ResVar → Prop :=
  Relation.EqvGen fun a b => (a, b) ∈ cs.storageEq ++ cs.flows

/-- A resource is owned where its class has a member that is forced owned, a binding where a use
    is, and a use where its binding is and its lifetime does not end before the binding's scope. -/
structure AccessRules (cs : Constraints) (nRes : ℕ) (allOwnedFlag : Bool)
    (ltA : ResVar → Lifetime) (v : ResVar → Mode) : Prop where
  flag : allOwnedFlag = true → ∀ r, Inside (max 1 nRes) r → v r = .Owned
  forcedOwned : ∀ e ∈ cs.forcedOwned, ∀ r, Shares cs r e.1 → v r = .Owned
  uses : ∀ f ∈ cs.flows, v f.2 = .Owned → v f.1 = .Owned
  escaping : ∀ f ∈ cs.flows, endsBefore (ltA f.2) ((cs.scopes.get f.1).getD []) = false →
    v f.1 = .Owned → v f.2 = .Owned

/-- A resource lives until its seeds, a binding as long as its borrowed uses, and an owned
    container as long as the borrowed values read out of it. -/
structure LtPRules (cs : Constraints) (access : ResVar → Mode) (v : ResVar → Lifetime) :
    Prop where
  seeds : ∀ e ∈ cs.seeds, fromPath e.2 ≤ v e.1
  flows : ∀ f ∈ cs.flows, access f.2 = .Borrowed → v f.2 ≤ v f.1
  gets : ∀ g ∈ cs.gets, ∀ e ∈ g.out, access e.1 = .Owned → access e.2 = .Borrowed → v e.2 ≤ v e.1

section

variable {n m nRes : ℕ} {cs : Constraints} {allOwnedFlag : Bool} {r : ResVar}

theorem inside_mono (hle : n ≤ m) (h : Inside n r) : Inside m r := by
  obtain ⟨hpos, hlt⟩ := h
  exact ⟨hpos, by omega⟩

/-- Constraints over some variables are constraints over more. -/
theorem Constraints.Over.mono (h : cs.Over n) (hle : n ≤ m) : cs.Over m where
  flows e he := ⟨inside_mono hle (h.flows e he).1, inside_mono hle (h.flows e he).2⟩
  gets g hg e he := ⟨inside_mono hle (h.gets g hg e he).1, inside_mono hle (h.gets g hg e he).2⟩
  storageEq e he := ⟨inside_mono hle (h.storageEq e he).1, inside_mono hle (h.storageEq e he).2⟩
  seeds e he := inside_mono hle (h.seeds e he)
  forcedOwned e he := inside_mono hle (h.forcedOwned e he)
  paramSeeds e he := inside_mono hle (h.paramSeeds e he)

theorem le_iff_owned {a b : Mode} : a ≤ b ↔ (a = .Owned → b = .Owned) := by
  show lub a b = b ↔ _
  cases a <;> cases b <;> decide

/-! ## Starting values -/

theorem length_ltASeeded (nRes : ℕ) (cs : Constraints) :
    (ltASeeded nRes cs).length = max 1 nRes := by
  have h := length_seeded Lifetime.LEmpty (fun lt p => join lt (fromPath p)) cs.seeds
    (IntArray.repeated (max 1 nRes) .LEmpty)
  rwa [IntArray.length_repeated] at h

/-- Above the seeded lifetimes lies what is above every seed. -/
theorem view_ltASeeded (h : cs.Over (max 1 nRes)) (w : ResVar → Lifetime) :
    view .LEmpty (ltASeeded nRes cs) ≤ w ↔ ∀ e ∈ cs.seeds, fromPath e.2 ≤ w e.1 := by
  have hput : ∀ (a : Lifetime) (p : Path) (b : Lifetime),
      join a (fromPath p) ≤ b ↔ a ≤ b ∧ fromPath p ≤ b := by
    intro a p b
    rw [isLUB_le_iff (isLUB_join a (fromPath p))]
    simp [upperBounds]
  have hseeded := view_seeded Lifetime.LEmpty hput h.seeds
    (IntArray.length_repeated (max 1 nRes) .LEmpty) w
  refine hseeded.trans (and_iff_right fun r => ?_)
  rw [view_repeated]
  exact rfl

theorem length_alphaSeeded (nRes : ℕ) (cs : Constraints) :
    (alphaSeeded nRes cs).length = max 1 nRes := by
  have h := length_seeded (∅ : Finset ℤ) (fun s i => insert i s) cs.paramSeeds
    (IntArray.repeated (max 1 nRes) ∅)
  rwa [IntArray.length_repeated] at h

/-- Above the seeded parameters lies what holds every seed. -/
theorem view_alphaSeeded (h : cs.Over (max 1 nRes)) (w : ResVar → Finset ℤ) :
    view ∅ (alphaSeeded nRes cs) ≤ w ↔ ∀ e ∈ cs.paramSeeds, e.2 ∈ w e.1 := by
  have hput : ∀ (a : Finset ℤ) (i : ℤ) (b : Finset ℤ), insert i a ≤ b ↔ a ≤ b ∧ i ∈ b := by
    intro a i b
    rw [and_comm]
    exact Finset.insert_subset_iff
  have hseeded := view_seeded (∅ : Finset ℤ) hput h.paramSeeds
    (IntArray.length_repeated (max 1 nRes) ∅) w
  refine hseeded.trans (and_iff_right fun r => ?_)
  rw [view_repeated]
  exact Finset.empty_subset _

/-! ## Storage classes -/

/-- Two variables have one root exactly when the constraints make them share. -/
theorem findRoot_dsuA (h : cs.Over (max 1 nRes)) {x y : ResVar} (hx : Inside (max 1 nRes) x)
    (hy : Inside (max 1 nRes) y) :
    Dsu.findRoot x (dsuA nRes cs) = Dsu.findRoot y (dsuA nRes cs) ↔ Shares cs x y := by
  have hdsu : dsuA nRes cs = Dsu.unions (cs.storageEq ++ cs.flows) (Dsu.empty (max 1 nRes)) :=
    List.foldl_append.symm
  rw [hdsu]
  refine Dsu.findRoot_unions_iff (fun e he => ?_) hx hy
  rcases List.mem_append.mp he with he | he
  · exact h.storageEq e he
  · exact h.flows e he

/-- The forest of sharing variables is ranked, so roots are found. -/
theorem ranked_dsuA (h : cs.Over (max 1 nRes)) : Dsu.Ranked (max 1 nRes) (dsuA nRes cs) :=
  Dsu.ranked_unions h.flows (Dsu.ranked_unions h.storageEq (Dsu.ranked_empty _))

theorem inside_root (h : cs.Over (max 1 nRes)) (hr : Inside (max 1 nRes) r) :
    Inside (max 1 nRes) (Dsu.findRoot r (dsuA nRes cs)) :=
  (ranked_dsuA h).inside (Dsu.leads_findRoot (ranked_dsuA h) hr).isRoot

/-- Sharing does not leave the resources. -/
theorem Shares.inside_iff (h : cs.Over n) {x y : ResVar} (hxy : Shares cs x y) :
    Inside n x ↔ Inside n y := by
  induction hxy with
  | rel x y hmem =>
    have hin : Inside n x ∧ Inside n y := by
      rcases List.mem_append.mp hmem with hmem | hmem
      · exact h.storageEq _ hmem
      · exact h.flows _ hmem
    exact iff_of_true hin.1 hin.2
  | refl => exact Iff.rfl
  | symm _ _ _ ih => exact ih.symm
  | trans _ _ _ _ _ ih₁ ih₂ => exact ih₁.trans ih₂

/-- An entry is marked when it was before, or when one of the marks has it for its root. -/
theorem get_marked {β : Type} {root : β → ℤ} {marks : List β}
    (hroot : ∀ e ∈ marks, Inside n (root e)) {arr : List Bool} (harr : arr.length = n) (c : ℤ) :
    (get c (marks.foldl (fun arr e => set (root e) true arr) arr)).getD false = true ↔
      (get c arr).getD false = true ∨ ∃ e ∈ marks, root e = c := by
  induction marks generalizing arr with
  | nil => simp
  | cons e marks ih =>
    obtain ⟨he, hroot⟩ := List.forall_mem_cons.mp hroot
    rw [List.foldl_cons, ih hroot (by rw [IntArray.length_set, harr]),
      IntArray.get_set (by rw [harr]; exact he)]
    by_cases hc : c = root e
    · simp [hc]
    · simp [hc, Ne.symm hc]

/-- A class is owned-storing where a member of it is forced owned. -/
theorem storageOwned_iff (h : cs.Over (max 1 nRes)) (hr : Inside (max 1 nRes) r) :
    (get r (storageOwnedArr nRes cs)).getD false = true ↔
      ∃ e ∈ cs.forcedOwned, Shares cs r e.1 := by
  have hroot : ∀ e ∈ cs.forcedOwned,
      Inside (max 1 nRes) (Dsu.findRoot e.1 (dsuA nRes cs)) := by
    intro e he
    exact inside_root h (h.forcedOwned e he)
  have hmarked := get_marked hroot (IntArray.length_repeated (max 1 nRes) false)
    (Dsu.findRoot r (dsuA nRes cs))
  rw [storageOwnedArr, IntArray.get_tabulate hr, Option.getD_some]
  refine hmarked.trans ?_
  rw [IntArray.get_repeated (inside_root h hr), Option.getD_some, Bool.false_eq_true, false_or]
  constructor
  · rintro ⟨e, he, heq⟩
    exact ⟨e, he, (findRoot_dsuA h hr (h.forcedOwned e he)).mp heq.symm⟩
  · rintro ⟨e, he, hshares⟩
    exact ⟨e, he, ((findRoot_dsuA h hr (h.forcedOwned e he)).mpr hshares).symm⟩

theorem length_accessForced (nRes : ℕ) (allOwnedFlag : Bool) (cs : Constraints) :
    (accessForced nRes allOwnedFlag cs).length = max 1 nRes := by
  have h := length_seeded Mode.Borrowed (fun _ _ => Mode.Owned) cs.forcedOwned
    (accessInit nRes allOwnedFlag cs)
  rwa [accessInit, IntArray.length_tabulate] at h

/-- Above the first modes lies what owns all that the flag and the forced entries ask for. -/
theorem view_accessInit (h : cs.Over (max 1 nRes)) (w : ResVar → Mode) :
    view .Borrowed (accessInit nRes allOwnedFlag cs) ≤ w ↔
      (allOwnedFlag = true → ∀ r, Inside (max 1 nRes) r → w r = .Owned) ∧
      ∀ e ∈ cs.forcedOwned, ∀ r, Shares cs r e.1 → w r = .Owned := by
  have hval : ∀ r, view .Borrowed (accessInit nRes allOwnedFlag cs) r = .Owned ↔
      Inside (max 1 nRes) r ∧
        (allOwnedFlag = true ∨ ∃ e ∈ cs.forcedOwned, Shares cs r e.1) := by
    intro r
    by_cases hr : Inside (max 1 nRes) r
    · rw [view, accessInit, IntArray.get_tabulate hr, Option.getD_some, and_iff_right hr,
        ← storageOwned_iff h hr, ← Bool.or_eq_true]
      split_ifs with hor
      · exact iff_of_true rfl hor
      · exact iff_of_false (by decide) hor
    · rw [view, IntArray.get_eq_none (by rw [accessInit, IntArray.length_tabulate]; exact hr)]
      exact iff_of_false (by decide) fun hand => hr hand.1
  have hle : view .Borrowed (accessInit nRes allOwnedFlag cs) ≤ w ↔
      ∀ r, view .Borrowed (accessInit nRes allOwnedFlag cs) r = .Owned → w r = .Owned :=
    forall_congr' fun r => le_iff_owned
  rw [hle]
  constructor
  · intro hw
    refine ⟨fun hflag r hr => hw r ((hval r).mpr ⟨hr, Or.inl hflag⟩), fun e he r hshares => ?_⟩
    have hr := (hshares.inside_iff h).mpr (h.forcedOwned e he)
    exact hw r ((hval r).mpr ⟨hr, Or.inr ⟨e, he, hshares⟩⟩)
  · rintro ⟨hflag, hforced⟩ r hr
    obtain ⟨hr, hall | ⟨e, he, hshares⟩⟩ := (hval r).mp hr
    · exact hflag hall r hr
    · exact hforced e he r hshares

/-- The modes spread over the shared variables ask for the same. -/
theorem view_accessForced (h : cs.Over (max 1 nRes)) (w : ResVar → Mode) :
    view .Borrowed (accessForced nRes allOwnedFlag cs) ≤ w ↔
      (allOwnedFlag = true → ∀ r, Inside (max 1 nRes) r → w r = .Owned) ∧
      ∀ e ∈ cs.forcedOwned, ∀ r, Shares cs r e.1 → w r = .Owned := by
  have hput : ∀ (a : Mode) (x : Reason) (b : Mode), Mode.Owned ≤ b ↔ a ≤ b ∧ b = .Owned := by
    intro a _ b
    rw [le_iff_owned, le_iff_owned]
    cases b <;> simp
  have hlen : (accessInit nRes allOwnedFlag cs).length = max 1 nRes := by
    rw [accessInit, IntArray.length_tabulate]
  have hseeded : view .Borrowed (accessForced nRes allOwnedFlag cs) ≤ w ↔
      view .Borrowed (accessInit nRes allOwnedFlag cs) ≤ w ∧ ∀ e ∈ cs.forcedOwned, w e.1 = .Owned :=
    view_seeded Mode.Borrowed hput h.forcedOwned hlen w
  rw [hseeded, view_accessInit h]
  -- a resource shares its own class
  refine and_iff_left_of_imp fun hw e he => ?_
  exact hw.2 e he e.1 (Relation.EqvGen.refl e.1)

/-! ## The solution -/

/-- What the sweep of the modes settles, as rules on the flows. -/
theorem settled_access (ltA : List Lifetime) (v : ResVar → Mode) :
    Settled (accessEdges cs ltA) v ↔ ∀ f ∈ cs.flows, v f.2 ≤ v f.1 ∧
      (endsBefore (arrGet f.2 ltA) ((cs.scopes.get f.1).getD []) = false → v f.1 ≤ v f.2) := by
  rw [Settled, accessEdges, List.forall_mem_flatMap]
  refine forall₂_congr fun f _ => ?_
  rw [List.forall_mem_cons, escapes]
  refine and_congr Iff.rfl ?_
  cases endsBefore (arrGet f.2 ltA) ((cs.scopes.get f.1).getD []) <;> simp

/-- What the sweep of the lower lifetimes settles, as rules on the flows and the gets. -/
theorem settled_ltP (access : List Mode) (v : ResVar → Lifetime) :
    Settled (ltPEdges cs access) v ↔
      (∀ f ∈ cs.flows, accGet f.2 access = .Borrowed → v f.2 ≤ v f.1) ∧
      ∀ g ∈ cs.gets, ∀ e ∈ g.out, accGet e.1 access = .Owned → accGet e.2 access = .Borrowed →
        v e.2 ≤ v e.1 := by
  rw [Settled, ltPEdges, List.forall_mem_append, List.forall_mem_flatMap]
  simp only [List.mem_filter, decide_eq_true_eq, and_imp]

/-- The rules of the lifetimes are the seeds and the settled flows. -/
theorem lifetimeRules_iff (h : cs.Over (max 1 nRes)) (v : ResVar → Lifetime) :
    (view .LEmpty (ltASeeded nRes cs) ≤ v ∧ Settled cs.flows v) ↔ LifetimeRules cs v := by
  rw [view_ltASeeded h]
  exact ⟨fun hv => ⟨hv.1, hv.2⟩, fun hv => ⟨hv.seeds, hv.flows⟩⟩

/-- The rules of the parameters are the seeds and the settled flows. -/
theorem alphaRules_iff (h : cs.Over (max 1 nRes)) (v : ResVar → Finset ℤ) :
    (view ∅ (alphaSeeded nRes cs) ≤ v ∧ Settled (cs.flows.map Prod.swap) v) ↔
      AlphaRules cs v := by
  rw [view_alphaSeeded h, Settled, List.forall_mem_map]
  exact ⟨fun hv => ⟨hv.1, hv.2⟩, fun hv => ⟨hv.seeds, hv.flows⟩⟩

/-- The rules of the modes are the forced entries and the settled flows. -/
theorem accessRules_iff (h : cs.Over (max 1 nRes)) (ltA : List Lifetime) (v : ResVar → Mode) :
    (view .Borrowed (accessForced nRes allOwnedFlag cs) ≤ v ∧ Settled (accessEdges cs ltA) v) ↔
      AccessRules cs nRes allOwnedFlag (fun r => arrGet r ltA) v := by
  rw [view_accessForced h, settled_access]
  simp only [le_iff_owned]
  constructor
  · rintro ⟨⟨hflag, hforced⟩, hflows⟩
    exact ⟨hflag, hforced, fun f hf => (hflows f hf).1, fun f hf => (hflows f hf).2⟩
  · intro hv
    exact ⟨⟨hv.flag, hv.forcedOwned⟩, fun f hf => ⟨hv.uses f hf, hv.escaping f hf⟩⟩

/-- The rules of the lower lifetimes are the seeds and the settled edges. -/
theorem ltPRules_iff (h : cs.Over (max 1 nRes)) (access : List Mode) (v : ResVar → Lifetime) :
    (view .LEmpty (ltASeeded nRes cs) ≤ v ∧ Settled (ltPEdges cs access) v) ↔
      LtPRules cs (fun r => accGet r access) v := by
  rw [view_ltASeeded h, settled_ltP]
  exact ⟨fun hv => ⟨hv.1, hv.2.1, hv.2.2⟩, fun hv => ⟨hv.seeds, hv.flows, hv.gets⟩⟩

theorem iterBudget_pos (nRes : ℕ) : 0 < iterBudget nRes := Nat.succ_pos _

/-- The budget is no less than the number of variables. -/
theorem le_iterBudget (nRes : ℕ) : max 1 nRes ≤ iterBudget nRes := by
  rw [iterBudget]
  omega

/-- The budget does not stop a fixpoint, which finds the least values that keep the rules. -/
theorem Sweeps.least {α : Type} [Preorder α] [DecidableLE α] {join : α → α → α} {bot : α}
    {edges : List (ℤ × ℤ)} {step : List α → List α × Bool} {start : List α}
    {rules : (ResVar → α) → Prop} (hjoin : ∀ a b, IsLUB {a, b} (join a b))
    (hstep : Sweeps join (max 1 nRes) bot edges step) (hstart : start.length = max 1 nRes)
    (hrules : ∀ v, (view bot start ≤ v ∧ Settled edges v) ↔ rules v) :
    StopsWithin step start (iterBudget nRes) ∧
      IsLeast {v | rules v} (view bot (fix step start (iterBudget nRes))) := by
  have hset : {v | view bot start ≤ v ∧ Settled edges v} = {v | rules v} := Set.ext hrules
  rw [← hset]
  exact ⟨hstep.stopsWithin hjoin hstart (iterBudget_pos nRes) (le_iterBudget nRes),
    hstep.isLeast hjoin hstart (iterBudget_pos nRes) (le_iterBudget nRes)⟩

/-- The lifetimes: the iteration stops and its result is the least. -/
theorem ltA_least (h : cs.Over nRes) :
    StopsWithin (sweepLifetimes cs.flows) (ltASeeded nRes cs) (iterBudget nRes) ∧
      IsLeast {v | LifetimeRules cs v} (fun r => ltAOf r (solve nRes allOwnedFlag cs)) := by
  have hmax := h.mono (le_max_right 1 nRes)
  exact (sweeps_lifetimes hmax.flows).least isLUB_join (length_ltASeeded nRes cs)
    (lifetimeRules_iff hmax)

/-- The parameters: the iteration stops and its result is the least. -/
theorem alpha_least (h : cs.Over nRes) :
    StopsWithin (sweepAlpha cs.flows) (alphaSeeded nRes cs) (iterBudget nRes) ∧
      IsLeast {v | AlphaRules cs v} (fun r => alphaOf r (solve nRes allOwnedFlag cs)) := by
  have hmax := h.mono (le_max_right 1 nRes)
  exact (sweeps_alpha hmax.flows).least isLUB_union (length_alphaSeeded nRes cs)
    (alphaRules_iff hmax)

/-- The modes: the iteration stops and its result is the least. -/
theorem access_least (h : cs.Over nRes) :
    StopsWithin (sweepAccess cs (solve nRes allOwnedFlag cs).ltA)
        (accessForced nRes allOwnedFlag cs) (iterBudget nRes) ∧
      IsLeast {v | AccessRules cs nRes allOwnedFlag
          (fun r => ltAOf r (solve nRes allOwnedFlag cs)) v}
        (fun r => accessMode r (solve nRes allOwnedFlag cs)) := by
  have hmax := h.mono (le_max_right 1 nRes)
  exact (sweeps_access _ hmax.flows).least isLUB_lub (length_accessForced nRes allOwnedFlag cs)
    (accessRules_iff hmax _)

/-- The lower lifetimes: the iteration stops and its result is the least. -/
theorem ltP_least (h : cs.Over nRes) :
    StopsWithin (sweepLtP cs (solve nRes allOwnedFlag cs).access) (ltASeeded nRes cs)
        (iterBudget nRes) ∧
      IsLeast {v | LtPRules cs (fun r => accessMode r (solve nRes allOwnedFlag cs)) v}
        (fun r => ltPOf r (solve nRes allOwnedFlag cs)) := by
  have hmax := h.mono (le_max_right 1 nRes)
  exact (sweeps_ltP _ hmax.flows hmax.gets).least isLUB_join (length_ltASeeded nRes cs)
    (ltPRules_iff hmax _)

/-! ## What the answers mean -/

/-- The value of one variable at the start is the least one that holds its own seeds. -/
theorem start_le_iff {α β : Type} [Preorder α] {start : ℤ → α} {seeds : List (ℤ × β)}
    (holds : β → α → Prop) (hstart : ∀ w, start ≤ w ↔ ∀ e ∈ seeds, holds e.2 (w e.1)) (j : ℤ)
    (b : α) : start j ≤ b ↔ ∀ e ∈ seeds, e.1 = j → holds e.2 b := by
  -- the start with another value at the one variable is a start as good as it
  have hself := (hstart start).mp le_rfl
  have hupdate : start ≤ Function.update start j b ↔ start j ≤ b := by
    rw [le_update_iff]
    exact and_iff_left fun _ _ => le_rfl
  rw [← hupdate, hstart]
  refine forall₂_congr fun e he => ?_
  by_cases hej : e.1 = j
  · rw [hej, Function.update_self, forall_prop_of_true rfl]
  · rw [Function.update_of_ne hej]
    exact iff_of_true (hself e he) fun heq => absurd heq hej

/-- A resource lives until the last of the seeds of the resources that it flows to. -/
theorem ltAOf_le_iff (h : cs.Over nRes) (r : ResVar) (lt : Lifetime) :
    ltAOf r (solve nRes allOwnedFlag cs) ≤ lt ↔
      ∀ e ∈ cs.seeds, Reaches cs.flows r e.1 → fromPath e.2 ≤ lt := by
  have hmax := h.mono (le_max_right 1 nRes)
  have hfix := (sweeps_lifetimes hmax.flows).fix_le_iff isLUB_join (length_ltASeeded nRes cs)
    (iterBudget_pos nRes) (le_iterBudget nRes) r lt
  refine hfix.trans ?_
  have hstart := start_le_iff (fun p lt => fromPath p ≤ lt) (view_ltASeeded hmax)
  constructor
  · intro hall e he hreach
    exact (hstart e.1 lt).mp (hall e.1 hreach) e he rfl
  · intro hall j hreach
    refine (hstart j lt).mpr ?_
    rintro e he rfl
    exact hall e he hreach

/-- The parameters of a variable are those seeded at a variable it flows to. -/
theorem alphaOf_subset_iff (allOwnedFlag : Bool) (h : cs.Over nRes) (r : ResVar) (s : Finset ℤ) :
    alphaOf r (solve nRes allOwnedFlag cs) ⊆ s ↔
      ∀ e ∈ cs.paramSeeds, Reaches (cs.flows.map Prod.swap) r e.1 → e.2 ∈ s := by
  have hmax := h.mono (le_max_right 1 nRes)
  have hfix := (sweeps_alpha hmax.flows).fix_le_iff isLUB_union (length_alphaSeeded nRes cs)
    (iterBudget_pos nRes) (le_iterBudget nRes) r s
  refine Iff.trans hfix ?_
  have hstart := start_le_iff (fun i s => i ∈ s) (view_alphaSeeded hmax)
  constructor
  · intro hall e he hreach
    exact (hstart e.1 s).mp (hall e.1 hreach) e he rfl
  · intro hall j hreach
    refine (hstart j s).mpr ?_
    rintro e he rfl
    exact hall e he hreach

/-- The alpha set of a resource: the parameters whose values can reach it along flows. -/
theorem mem_alphaOf_iff (h : cs.Over nRes) (r : ResVar) (i : ℤ) :
    i ∈ alphaOf r (solve nRes allOwnedFlag cs) ↔
      ∃ e ∈ cs.paramSeeds, e.2 = i ∧ Reaches (cs.flows.map Prod.swap) r e.1 := by
  have hmem := (alphaOf_subset_iff allOwnedFlag h r _).mp (Finset.Subset.refl _)
  constructor
  · intro hi
    by_contra hnone
    -- without a seed of it, the set less the parameter keeps the rules too
    have hsub := (alphaOf_subset_iff allOwnedFlag h r
      ((alphaOf r (solve nRes allOwnedFlag cs)).erase i)).mpr fun e he hreach =>
        Finset.mem_erase.mpr ⟨fun heq => hnone ⟨e, he, heq, hreach⟩, hmem e he hreach⟩
    exact Finset.notMem_erase i _ (hsub hi)
  · rintro ⟨e, he, rfl, hreach⟩
    exact hmem e he hreach

/-- A query about the class of a resource. -/
theorem storageOwnedOf_iff (h : cs.Over nRes) (hr : Inside (max 1 nRes) r) :
    storageOwnedOf r (solve nRes allOwnedFlag cs) = true ↔
      ∃ e ∈ cs.forcedOwned, Shares cs r e.1 := by
  have hmax := h.mono (le_max_right 1 nRes)
  -- the query asks about the root, which is its own root
  have hroot := inside_root hmax hr
  have hd := ranked_dsuA hmax
  have hsame : Dsu.findRoot (Dsu.findRoot r (dsuA nRes cs)) (dsuA nRes cs) =
      Dsu.findRoot r (dsuA nRes cs) :=
    (Dsu.findRoot_eq_iff hd hroot).mpr (.root (Dsu.leads_findRoot hd hr).isRoot)
  have hshares := (findRoot_dsuA hmax hroot hr).mp hsame
  refine (storageOwned_iff hmax hroot).trans ?_
  refine exists_congr fun e => and_congr_right fun _ => ?_
  exact ⟨fun he => (hshares.symm _ _).trans _ _ _ he, fun he => hshares.trans _ _ _ he⟩

/-- A resource in an owned-storing class is owned, and so the access modes decide. -/
theorem reifiedOwned_iff (h : cs.Over nRes) (hr : Inside (max 1 nRes) r) :
    reifiedOwned r (solve nRes allOwnedFlag cs) = true ↔
      accessMode r (solve nRes allOwnedFlag cs) = .Owned := by
  rw [reifiedOwned, Bool.or_eq_true, decide_eq_true_eq]
  refine or_iff_left_of_imp fun hstorage => ?_
  obtain ⟨e, he, hshares⟩ := (storageOwnedOf_iff h hr).mp hstorage
  exact (access_least h).2.1.forcedOwned e he r hshares

end

/-- **LEAST SOLUTION**: every fixpoint of the solver stops on its own, at the least values that keep
    the rules of the constraints, over a preorder with joins whose ends are antitone. -/
theorem solve_least (nRes : ℕ) (allOwnedFlag : Bool) (cs : Constraints) (h : cs.Over nRes) :
    (StopsWithin (sweepLifetimes cs.flows) (ltASeeded nRes cs) (iterBudget nRes) ∧
      IsLeast {v | LifetimeRules cs v} (fun r => ltAOf r (solve nRes allOwnedFlag cs))) ∧
    (StopsWithin (sweepAlpha cs.flows) (alphaSeeded nRes cs) (iterBudget nRes) ∧
      IsLeast {v | AlphaRules cs v} (fun r => alphaOf r (solve nRes allOwnedFlag cs))) ∧
    (StopsWithin (sweepAccess cs (solve nRes allOwnedFlag cs).ltA)
        (accessForced nRes allOwnedFlag cs) (iterBudget nRes) ∧
      IsLeast {v | AccessRules cs nRes allOwnedFlag
          (fun r => ltAOf r (solve nRes allOwnedFlag cs)) v}
        (fun r => accessMode r (solve nRes allOwnedFlag cs))) ∧
    (StopsWithin (sweepLtP cs (solve nRes allOwnedFlag cs).access) (ltASeeded nRes cs)
        (iterBudget nRes) ∧
      IsLeast {v | LtPRules cs (fun r => accessMode r (solve nRes allOwnedFlag cs)) v}
        (fun r => ltPOf r (solve nRes allOwnedFlag cs))) ∧
    (∀ a, leq a a = true) ∧
    (∀ a b c, leq a b = true → leq b c = true → leq a c = true) ∧
    (∀ a b, leq a (join a b) = true ∧ leq b (join a b) = true ∧
      ∀ c, leq a c = true → leq b c = true → leq (join a b) c = true) ∧
    ∀ a b path, leq a b = true → endsBefore b path = true → endsBefore a path = true := by
  refine ⟨ltA_least h, alpha_least h, access_least h, ltP_least h, leq_refl, leq_trans, ?_, ?_⟩
  · intro a b
    exact ⟨Saturation.le_join_left isLUB_join a b, Saturation.le_join_right isLUB_join a b,
      fun c ha hb => Saturation.join_le isLUB_join ha hb⟩
  · intro a b path hab hb
    exact endsBefore_of_leq hab hb

/-- A binding with one use, which lives until a point. -/
def oneUse : Constraints where
  flows := [(0, 1)]
  gets := []
  storageEq := []
  scopes := ⟨[], List.Pairwise.nil⟩
  seeds := [(1, [.Seq 0 1])]
  forcedOwned := [(1, .RConstruct)]
  paramSeeds := [(0, 0)]

theorem solve_least_oneUse : oneUse.Over 2 ∧
    IsLeast {v | LifetimeRules oneUse v} (fun r => ltAOf r (solve 2 false oneUse)) := by
  have hover : oneUse.Over 2 := ⟨by decide, by decide, by decide, by decide, by decide, by decide⟩
  exact ⟨hover, (solve_least 2 false oneUse hover).1.2⟩

end Borrow

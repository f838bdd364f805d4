import Mathlib

/-! # Saturation, independent of any program

    Variables hold values of an order with joins, and an edge lets its first end absorb the value
    of its second.  The edges are swept until a sweep changes nothing.

    * `Reaches`, `within_card` — what flows to a variable, in fewer steps than there are variables;
    * `Settled`, `sweep`, `saturate` — no edge has anything to do, one sweep, a number of them;
    * `settled_sweeps` — as many sweeps as variables settle every edge;
    * `saturate_stops`, `isLeast_saturate` — a bound of the number of variables does not stop the
      sweeps, and they find the least settled values above those at the start;
    * `saturate_le_iff` — which at a variable is the least bound of what flows to it. -/

namespace Saturation

/-! ## Reaching -/

section

variable {ι : Type}

/-- The value of `j` flows to `i` over `k` edges at most. -/
inductive Within (edges : List (ι × ι)) : ℕ → ι → ι → Prop where
  | here (k : ℕ) (i : ι) : Within edges k i i
  | step {k : ℕ} {i x j : ι} (he : (i, x) ∈ edges) (h : Within edges k x j) :
      Within edges (k + 1) i j

/-- The value of `j` flows to `i`. -/
def Reaches (edges : List (ι × ι)) (i j : ι) : Prop := ∃ k, Within edges k i j

variable {edges : List (ι × ι)} {k m : ℕ} {i j x : ι}

/-- What is reached within so many steps is reached within more. -/
theorem Within.mono (h : Within edges k i j) (hle : k ≤ m) : Within edges m i j := by
  induction h generalizing m with
  | here k i => exact .here m i
  | step he _ ih =>
    cases m with
    | zero => omega
    | succ m => exact .step he (ih (by omega))

theorem Reaches.refl (i : ι) : Reaches edges i i := ⟨0, .here 0 i⟩

/-- An edge before a path is a path. -/
theorem Reaches.step (he : (i, x) ∈ edges) (h : Reaches edges x j) : Reaches edges i j := by
  obtain ⟨k, h⟩ := h
  exact ⟨k + 1, .step he h⟩

/-- Paths stay among the variables. -/
theorem Reaches.mem {vars : Finset ι} (hvars : ∀ e ∈ edges, e.2 ∈ vars) (h : Reaches edges i j)
    (hi : i ∈ vars) : j ∈ vars := by
  obtain ⟨k, h⟩ := h
  induction h with
  | here => exact hi
  | step he _ ih => exact ih (hvars _ he)

/-- One step more adds nothing, and so no number of them does. -/
theorem within_of_stable (hstable : ∀ i, Within edges (m + 1) i j → Within edges m i j)
    (h : Within edges k i j) : Within edges m i j := by
  induction h with
  | here k i => exact .here m i
  | step he _ ih => exact hstable _ (.step he (ih hstable))

variable [DecidableEq ι]

/-- The variables that `j` flows to are collected one by one, until a step adds none. -/
theorem within_grows {vars : Finset ι} (hvars : ∀ e ∈ edges, e.1 ∈ vars) (hj : j ∈ vars) (k : ℕ) :
    (∃ m < k, ∀ i, Within edges (m + 1) i j → Within edges m i j) ∨
      ∃ found : Finset ι, found ⊆ vars ∧ (∀ i ∈ found, Within edges k i j) ∧ k < found.card := by
  induction k with
  | zero =>
    refine Or.inr ⟨{j}, Finset.singleton_subset_iff.mpr hj, ?_, Nat.lt_succ_self 0⟩
    intro i hi
    rw [Finset.mem_singleton.mp hi]
    exact .here 0 j
  | succ k ih =>
    rcases ih with ⟨m, hm, hstable⟩ | ⟨found, hsub, hfound, hcard⟩
    · exact Or.inl ⟨m, by omega, hstable⟩
    · by_cases hstable : ∀ i, Within edges (k + 1) i j → Within edges k i j
      · exact Or.inl ⟨k, by omega, hstable⟩
      · -- a variable that is a step further is none of those found
        push Not at hstable
        obtain ⟨i, hi, hnot⟩ := hstable
        have hnew : i ∉ found := fun hmem => hnot (hfound i hmem)
        have hin : i ∈ vars := by
          cases hi with
          | here => exact hj
          | step he _ => exact hvars _ he
        refine Or.inr ⟨insert i found, Finset.insert_subset hin hsub, ?_, ?_⟩
        · intro x hx
          rcases Finset.mem_insert.mp hx with rfl | hx
          · exact hi
          · exact (hfound x hx).mono (Nat.le_succ k)
        · rw [Finset.card_insert_of_notMem hnew]
          omega

/-- What flows to a variable flows over fewer edges than there are variables. -/
theorem within_card {vars : Finset ι} (hvars : ∀ e ∈ edges, e.1 ∈ vars) (hj : j ∈ vars)
    (h : Reaches edges i j) : Within edges (vars.card - 1) i j := by
  obtain ⟨k, h⟩ := h
  rcases within_grows hvars hj vars.card with ⟨m, hm, hstable⟩ | ⟨found, hsub, -, hcard⟩
  · exact (within_of_stable hstable h).mono (by omega)
  · have hle := Finset.card_le_card hsub
    omega

end

/-! ## Sweeps -/

section

variable {ι L : Type} [DecidableEq ι] [Preorder L] [DecidableLE L]

/-- Every variable is above those it absorbs. -/
def Settled (edges : List (ι × ι)) (v : ι → L) : Prop := ∀ e ∈ edges, v e.2 ≤ v e.1

instance (edges : List (ι × ι)) (v : ι → L) : Decidable (Settled edges v) :=
  inferInstanceAs (Decidable (∀ e ∈ edges, v e.2 ≤ v e.1))

section

variable (join : L → L → L)

/-- The first end of an edge absorbs the second. -/
def absorb (v : ι → L) (e : ι × ι) : ι → L :=
  if v e.2 ≤ v e.1 then v else Function.update v e.1 (join (v e.1) (v e.2))

/-- One pass over the edges. -/
def sweep (edges : List (ι × ι)) (v : ι → L) : ι → L := edges.foldl (absorb join) v

/-- Sweeps until nothing changes, a number of them at most. -/
def saturate (edges : List (ι × ι)) : ℕ → (ι → L) → ι → L
  | 0, v => v
  | budget + 1, v => if Settled edges v then v else saturate edges budget (sweep join edges v)

end

end

/-! ## What a sweep does -/

section

variable {ι L : Type} [DecidableEq ι] [Preorder L] {join : L → L → L}
  (hjoin : ∀ a b, IsLUB {a, b} (join a b)) {edges : List (ι × ι)} {start v w : ι → L} {i j : ι}
  {e : ι × ι}

include hjoin

theorem le_join_left (a b : L) : a ≤ join a b := (hjoin a b).1 (Set.mem_insert a {b})

theorem le_join_right (a b : L) : b ≤ join a b :=
  (hjoin a b).1 (Set.mem_insert_of_mem a (Set.mem_singleton b))

theorem join_le {a b c : L} (ha : a ≤ c) (hb : b ≤ c) : join a b ≤ c := by
  refine (hjoin a b).2 ?_
  intro x hx
  rcases hx with rfl | rfl
  · exact ha
  · exact hb

variable [DecidableLE L]

/-- Absorbing lowers nothing. -/
theorem le_absorb (v : ι → L) (e : ι × ι) (i : ι) : v i ≤ absorb join v e i := by
  rw [absorb]
  split_ifs with h
  · exact le_rfl
  · by_cases hi : i = e.1
    · rw [hi, Function.update_self]
      exact le_join_left hjoin _ _
    · rw [Function.update_of_ne hi]

/-- An edge that was absorbed is settled. -/
theorem absorbed (v : ι → L) (e : ι × ι) : v e.2 ≤ absorb join v e e.1 := by
  rw [absorb]
  split_ifs with h
  · exact h
  · rw [Function.update_self]
    exact le_join_right hjoin _ _

/-- Below any bound of the two ends, absorbing stays below it. -/
theorem absorb_le (hv : ∀ i, v i ≤ w i) (he : w e.2 ≤ w e.1) (i : ι) :
    absorb join v e i ≤ w i := by
  rw [absorb]
  split_ifs with h
  · exact hv i
  · by_cases hi : i = e.1
    · rw [hi, Function.update_self]
      exact join_le hjoin (hv _) ((hv _).trans he)
    · rw [Function.update_of_ne hi]
      exact hv i

/-- A sweep lowers nothing. -/
theorem le_sweep (edges : List (ι × ι)) (v : ι → L) (i : ι) : v i ≤ sweep join edges v i := by
  induction edges generalizing v with
  | nil => exact le_rfl
  | cons e edges ih => exact (le_absorb hjoin v e i).trans (ih (absorb join v e))

/-- After a sweep a variable is above what it absorbs of the values before. -/
theorem absorbed_sweep (v : ι → L) (he : (i, j) ∈ edges) : v j ≤ sweep join edges v i := by
  induction edges generalizing v with
  | nil => cases he
  | cons e edges ih =>
    rcases List.mem_cons.mp he with rfl | he
    · exact (absorbed hjoin v (i, j)).trans (le_sweep hjoin edges _ i)
    · exact (le_absorb hjoin v e j).trans (ih (absorb join v e) he)

/-- A sweep stays below every settled assignment above its start. -/
theorem sweep_le (hv : ∀ i, v i ≤ w i) (hw : Settled edges w) (i : ι) :
    sweep join edges v i ≤ w i := by
  induction edges generalizing v with
  | nil => exact hv i
  | cons e edges ih =>
    obtain ⟨he, hw⟩ := List.forall_mem_cons.mp hw
    exact ih (absorb_le hjoin hv he) hw

omit hjoin in
/-- Settled values are left as they are. -/
theorem sweep_of_settled (hv : Settled edges v) : sweep join edges v = v := by
  induction edges with
  | nil => rfl
  | cons e edges ih =>
    obtain ⟨he, hv⟩ := List.forall_mem_cons.mp hv
    have habsorb : absorb join v e = v := if_pos he
    rw [sweep, List.foldl_cons, habsorb]
    exact ih hv

/-! ## A number of sweeps -/

theorem le_sweeps (v : ι → L) (k : ℕ) (i : ι) : v i ≤ (sweep join edges)^[k] v i := by
  induction k with
  | zero => exact le_rfl
  | succ k ih =>
    rw [Function.iterate_succ_apply']
    exact ih.trans (le_sweep hjoin edges _ i)

/-- So does any number of sweeps. -/
theorem sweeps_le (hv : ∀ i, v i ≤ w i) (hw : Settled edges w) (k : ℕ) (i : ι) :
    (sweep join edges)^[k] v i ≤ w i := by
  induction k generalizing i with
  | zero => exact hv i
  | succ k ih =>
    rw [Function.iterate_succ_apply']
    exact sweep_le hjoin ih hw i

/-- A value is carried over one edge in each sweep at least. -/
theorem within_sweeps (v : ι → L) {k : ℕ} (h : Within edges k i j) :
    v j ≤ (sweep join edges)^[k] v i := by
  induction h with
  | here k i => exact le_sweeps hjoin v k i
  | step he _ ih =>
    rw [Function.iterate_succ_apply']
    exact ih.trans (absorbed_sweep hjoin _ he)

/-- Bounded by what bounds the values that flow to each variable. -/
def Bounded (edges : List (ι × ι)) (start v : ι → L) : Prop :=
  ∀ i b, (∀ j, Reaches edges i j → start j ≤ b) → v i ≤ b

/-- Absorbing brings in only what a path brings. -/
theorem bounded_absorb (hv : Bounded edges start v) (he : e ∈ edges) :
    Bounded edges start (absorb join v e) := by
  intro i b hb
  rw [absorb]
  split_ifs with h
  · exact hv i b hb
  · by_cases hi : i = e.1
    · subst hi
      rw [Function.update_self]
      exact join_le hjoin (hv e.1 b hb) (hv e.2 b fun j hj => hb j (hj.step he))
    · rw [Function.update_of_ne hi]
      exact hv i b hb

/-- So does a sweep. -/
theorem bounded_sweep (hv : Bounded edges start v) : Bounded edges start (sweep join edges v) := by
  have hfold : ∀ (l : List (ι × ι)) (v : ι → L), (∀ e ∈ l, e ∈ edges) → Bounded edges start v →
      Bounded edges start (l.foldl (absorb join) v) := by
    intro l
    induction l with
    | nil => exact fun v _ hv => hv
    | cons e l ih =>
      intro v hl hv
      obtain ⟨he, hl⟩ := List.forall_mem_cons.mp hl
      exact ih _ hl (bounded_absorb hjoin hv he)
  exact hfold edges v (fun e he => he) hv

/-- So does any number of sweeps. -/
theorem bounded_sweeps (v : ι → L) (k : ℕ) : Bounded edges v ((sweep join edges)^[k] v) := by
  induction k with
  | zero => exact fun i b hb => hb i (Reaches.refl i)
  | succ k ih =>
    rw [Function.iterate_succ_apply']
    exact bounded_sweep hjoin ih

/-- As many sweeps as there are variables, but one, settle every edge. -/
theorem settled_sweeps {vars : Finset ι} (hvars : ∀ e ∈ edges, e.1 ∈ vars ∧ e.2 ∈ vars)
    (v : ι → L) {k : ℕ} (hk : vars.card - 1 ≤ k) : Settled edges ((sweep join edges)^[k] v) := by
  intro e he
  refine bounded_sweeps hjoin v k e.2 _ fun j hj => ?_
  have hin := hj.mem (fun e he => (hvars e he).2) (hvars e he).2
  have hwithin := within_card (fun e he => (hvars e he).1) hin (hj.step he)
  exact within_sweeps hjoin v (hwithin.mono hk)

/-! ## The solution -/

omit hjoin in
/-- The sweeps stop where nothing changes. -/
theorem saturate_of_settled {budget n : ℕ} (hn : n < budget)
    (h : Settled edges ((sweep join edges)^[n] v)) :
    ∃ k < budget, saturate join edges budget v = (sweep join edges)^[k] v ∧
      Settled edges ((sweep join edges)^[k] v) := by
  induction budget generalizing v n with
  | zero => exact absurd hn (Nat.not_lt_zero n)
  | succ budget ih =>
    rw [saturate]
    split_ifs with hsettled
    · exact ⟨0, Nat.succ_pos _, rfl, hsettled⟩
    · cases n with
      | zero => exact absurd h hsettled
      | succ n =>
        obtain ⟨k, hk, heq, hstop⟩ := ih (n := n) (v := sweep join edges v) (by omega) h
        exact ⟨k + 1, Nat.succ_lt_succ hk, heq, hstop⟩

/-- With as many sweeps as there are variables, the last one changes nothing. -/
theorem saturate_stops {vars : Finset ι} (hvars : ∀ e ∈ edges, e.1 ∈ vars ∧ e.2 ∈ vars)
    (v : ι → L) {budget : ℕ} (hpos : 0 < budget) (hb : vars.card ≤ budget) :
    ∃ k < budget, saturate join edges budget v = (sweep join edges)^[k] v ∧
      Settled edges ((sweep join edges)^[k] v) :=
  saturate_of_settled (by omega) (settled_sweeps hjoin hvars v le_rfl)

/-- Within as many sweeps as there are variables the least settled assignment is reached. -/
theorem isLeast_saturate {vars : Finset ι} (hvars : ∀ e ∈ edges, e.1 ∈ vars ∧ e.2 ∈ vars)
    (v : ι → L) {budget : ℕ} (hpos : 0 < budget) (hb : vars.card ≤ budget) :
    IsLeast {w | v ≤ w ∧ Settled edges w} (saturate join edges budget v) := by
  obtain ⟨k, -, heq, hsettled⟩ := saturate_stops hjoin hvars v hpos hb
  rw [heq]
  refine ⟨⟨le_sweeps hjoin v k, hsettled⟩, ?_⟩
  rintro w ⟨hv, hw⟩
  exact sweeps_le hjoin hv hw k

omit hjoin [DecidableEq ι] [DecidableLE L] in
/-- Settled edges carry values along paths. -/
theorem Settled.le_of_reaches (h : Settled edges v) (hij : Reaches edges i j) : v j ≤ v i := by
  obtain ⟨k, hij⟩ := hij
  induction hij with
  | here => exact le_rfl
  | step he _ ih => exact ih.trans (h _ he)

/-- The least settled value of a variable is the least bound of the values that flow to it. -/
theorem saturate_le_iff {vars : Finset ι} (hvars : ∀ e ∈ edges, e.1 ∈ vars ∧ e.2 ∈ vars)
    (v : ι → L) {budget : ℕ} (hpos : 0 < budget) (hb : vars.card ≤ budget) (b : L) :
    saturate join edges budget v i ≤ b ↔ ∀ j, Reaches edges i j → v j ≤ b := by
  obtain ⟨k, -, heq, hsettled⟩ := saturate_stops hjoin hvars v hpos hb
  rw [heq]
  constructor
  · intro h j hij
    exact ((le_sweeps hjoin v k j).trans (hsettled.le_of_reaches hij)).trans h
  · intro h
    exact bounded_sweeps hjoin v k i b h

end

end Saturation

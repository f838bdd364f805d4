import EcoCompiler.Graph

/-! # The two searches

    * `rpoHelp_run` — enough fuel runs the whole search, step by step;
    * `reversePostOrder_spec` — the order has every vertex once, and says what it should of
      back edges;
    * `collectComponent_spec` — what is reached outside the vertices visited before;
    * `stronglyConnCompInt_spec` — the components of a graph that meets its contract. -/

namespace Graph

open DepthFirst Relation

/-! ## Fuel -/

/-- The members of a bit set. -/
def members (visited : BitSet) : Set ℕ := {v | BitSet.member v visited = true}

theorem members_insert {visited : BitSet} {v : ℕ} (h : v < visited.size) :
    members (visited.insert v) = insert v (members visited) := by
  ext u
  exact BitSet.member_insert h u

/-- What the vertices not yet visited may still cost: `cost` of each. -/
def pendingCost (cost : ℕ → ℕ) (n : ℕ) (visited : BitSet) : ℕ :=
  ∑ v ∈ Finset.range n, if BitSet.member v visited = true then 0 else cost v

theorem pendingCost_insert (cost : ℕ → ℕ) {visited : BitSet} {v : ℕ} (hv : v < visited.size)
    (h : BitSet.member v visited ≠ true) :
    pendingCost cost visited.size (visited.insert v) + cost v
      = pendingCost cost visited.size visited := by
  have hmem : v ∈ Finset.range visited.size := Finset.mem_range.mpr hv
  have hself : BitSet.member v (visited.insert v) = true :=
    (BitSet.member_insert hv v).mpr (Or.inl rfl)
  rw [pendingCost, pendingCost, ← Finset.sum_erase_add _ _ hmem, ← Finset.sum_erase_add _ _ hmem,
    if_pos hself, if_neg h, add_zero]
  refine congrArg (fun k => k + cost v) (Finset.sum_congr rfl fun u hu => ?_)
  have hiff : BitSet.member u (visited.insert v) = true ↔ BitSet.member u visited = true := by
    rw [BitSet.member_insert hv]
    exact or_iff_right (Finset.ne_of_mem_erase hu)
  simp only [hiff]

theorem pendingCost_le (cost : ℕ → ℕ) (n : ℕ) (visited : BitSet) :
    pendingCost cost n visited ≤ ∑ v ∈ Finset.range n, cost v := by
  refine Finset.sum_le_sum fun v _ => ?_
  split
  · exact Nat.zero_le _
  · exact le_rfl

/-! ## The order of leaving -/

theorem foldl_enter (ns : List ℕ) (s : List DfsWork) :
    ns.foldl (fun s n => .enter n :: s) s = (ns.map Work.enter).reverse ++ s := by
  induction ns generalizing s with
  | nil => rfl
  | cons n ns ih =>
    rw [List.foldl_cons, ih, List.map_cons, List.reverse_cons, List.append_assoc]
    rfl

theorem foldl_push (ns s : List ℕ) : ns.foldl (fun s n => n :: s) s = ns.reverse ++ s := by
  induction ns generalizing s with
  | nil => rfl
  | cons n ns ih =>
    rw [List.foldl_cons, ih, List.reverse_cons, List.append_assoc]
    rfl

/-- The fuel that both searches need together. -/
def IntGraph.fuel (g : IntGraph) : ℕ :=
  1 + ∑ v ∈ Finset.range g.size, ((neighbors g.trans v).length + 1)
    + ∑ v ∈ Finset.range g.size, (neighbors g.fwd v).length

variable {adj : List (List ℕ)} {n fuel : ℕ}

theorem rpoHelp_run (bound : ∀ v, ∀ w ∈ neighbors adj v, w < n) {stack : List DfsWork}
    {visited : BitSet} {acc : List ℕ} (size : visited.size = n)
    (hstack : ∀ v, .enter v ∈ stack → v < n)
    (hfuel : stack.length + pendingCost (fun v => (neighbors adj v).length + 1) n visited ≤ fuel) :
    ∃ visited' acc', rpoHelp adj fuel stack visited acc = some (visited', acc') ∧
      visited'.size = n ∧
      ReflTransGen (Step (neighbors adj)) ⟨stack, members visited, acc⟩
        ⟨[], members visited', acc'⟩ := by
  -- by fuel, which covers the stack and the edges of what is not visited
  induction fuel generalizing stack visited acc with
  | zero =>
    cases stack with
    | nil => exact ⟨visited, acc, rfl, size, ReflTransGen.refl⟩
    | cons w rest =>
      rw [List.length_cons] at hfuel
      omega
  | succ fuel ih =>
    cases stack with
    | nil => exact ⟨visited, acc, rfl, size, ReflTransGen.refl⟩
    | cons w rest =>
      rw [List.length_cons] at hfuel
      have hrest : ∀ v, .enter v ∈ rest → v < n := fun v hv =>
        hstack v (List.mem_cons_of_mem w hv)
      cases w with
      | exit v =>
        obtain ⟨visited', acc', heq, hsize, run⟩ := ih size hrest (by omega)
        exact ⟨visited', acc', heq, hsize, ReflTransGen.head (.exit v ..) run⟩
      | enter v =>
        have hv : v < visited.size := by
          rw [size]
          exact hstack v (List.mem_cons_self ..)
        rw [rpoHelp]
        split
        · next hseen =>
          obtain ⟨visited', acc', heq, hsize, run⟩ := ih size hrest (by omega)
          exact ⟨visited', acc', heq, hsize, ReflTransGen.head (.seen v _ _ _ hseen) run⟩
        · next hfresh =>
          -- a new vertex pays for its neighbours and its exit
          have hcost := pendingCost_insert (fun v => (neighbors adj v).length + 1) hv hfresh
          rw [size] at hcost
          rw [foldl_enter]
          have hpush : ∀ u, .enter u ∈
              ((neighbors adj v).map Work.enter).reverse ++ Work.exit v :: rest → u < n := by
            intro u hu
            rcases List.mem_append.mp hu with hu | hu
            · obtain ⟨w, hw, heq⟩ := List.mem_map.mp (List.mem_reverse.mp hu)
              obtain rfl := Work.enter.inj heq
              exact bound v w hw
            · rcases List.mem_cons.mp hu with heq | hu
              · cases heq
              · exact hrest u hu
          have hsize : (visited.insert v).size = n := by rw [BitSet.insert_size, size]
          obtain ⟨visited', acc', heq, hsize, run⟩ := @ih _ _ acc hsize hpush (by simp; omega)
          refine ⟨visited', acc', heq, hsize, ReflTransGen.head ?_ run⟩
          rw [members_insert hv]
          exact .visit v _ _ _ hfresh

/-- The order of leaving: every vertex once, last left first. -/
theorem reversePostOrder_spec (bound : ∀ v, ∀ w ∈ neighbors adj v, w < n)
    (hfuel : 1 + ∑ v ∈ Finset.range n, ((neighbors adj v).length + 1) ≤ fuel) :
    ∃ rpo, reversePostOrder fuel adj n = some rpo ∧ rpo.Nodup ∧ (∀ v, v ∈ rpo ↔ v < n) ∧
      Ordered (Edge (neighbors adj)) rpo := by
  -- the searches that start below `k` have visited everything below `k`
  have hfold : ∀ k, k ≤ n → ∃ visited acc, (List.range k).foldlM
      (fun (r : BitSet × List ℕ) v =>
        if BitSet.member v r.1 then some r else rpoHelp adj fuel [.enter v] r.1 r.2)
      (BitSet.emptyWithSize n, []) = some (visited, acc) ∧ visited.size = n ∧
      DepthFirst.Inv (neighbors adj) ⟨[], members visited, acc⟩ ∧ ∀ v < k, v ∈ members visited := by
    intro k hk
    induction k with
    | zero =>
      have hempty : members (BitSet.emptyWithSize n) = ∅ := by
        ext v
        simp [members, BitSet.member_emptyWithSize]
      refine ⟨BitSet.emptyWithSize n, [], rfl, rfl, ?_, fun v hv => absurd hv (Nat.not_lt_zero v)⟩
      rw [hempty]
      exact inv_empty
    | succ k ih =>
      obtain ⟨visited, acc, heq, size, inv, hall⟩ := ih (by omega)
      rw [List.range_succ, List.foldlM_append, heq]
      by_cases hseen : BitSet.member k visited = true
      · refine ⟨visited, acc, ?_, size, inv, fun v hv => ?_⟩
        · simp [hseen]
        · rcases Nat.lt_succ_iff_lt_or_eq.mp hv with hv | rfl
          · exact hall v hv
          · exact hseen
      · have hcost := pendingCost_le (fun v => (neighbors adj v).length + 1) n visited
        have hstack : ∀ v, .enter v ∈ [Work.enter k] → v < n := by
          intro v hv
          obtain rfl := Work.enter.inj (List.mem_singleton.mp hv)
          omega
        obtain ⟨visited', acc', hrun, hsize, run⟩ :=
          @rpoHelp_run _ _ fuel bound _ _ acc size hstack (by simp; omega)
        have inv' := (inv.root k).run run
        refine ⟨visited', acc', ?_, hsize, inv', fun v hv => ?_⟩
        · simp [hseen, hrun]
        · have known : v ∈ members visited ∨ .enter v ∈ [Work.enter k] := by
            rcases Nat.lt_succ_iff_lt_or_eq.mp hv with hv | rfl
            · exact Or.inl (hall v hv)
            · exact Or.inr (List.mem_cons_self ..)
          exact (known_run run known).resolve_right List.not_mem_nil
  obtain ⟨visited, acc, heq, size, inv, hall⟩ := hfold n le_rfl
  refine ⟨acc, ?_, inv.nodup, fun v => ⟨fun hv => ?_, fun hv => ?_⟩, inv.ordered⟩
  · rw [reversePostOrder, heq]
    rfl
  · have hmem : v ∈ members visited := (inv.visited v).mpr (Or.inl hv)
    rw [← size]
    exact (BitSet.member_iff.mp hmem).1
  · exact ((inv.visited v).mp (hall v hv)).resolve_right List.not_mem_nil

/-! ## One component -/

theorem collectHelp_run (bound : ∀ v, ∀ w ∈ neighbors adj v, w < n) {S : Set ℕ} {start : ℕ}
    {stack : List ℕ} {visited : BitSet} {acc : List ℕ} (size : visited.size = n)
    (h : Collecting (neighbors adj) S start stack (members visited) acc)
    (hfuel : stack.length + pendingCost (fun v => (neighbors adj v).length) n visited ≤ fuel) :
    ∃ visited' acc', collectHelp adj fuel stack visited acc = some (visited', acc') ∧
      visited'.size = n ∧ Collecting (neighbors adj) S start [] (members visited') acc' := by
  induction fuel generalizing stack visited acc with
  | zero =>
    cases stack with
    | nil => exact ⟨visited, acc, rfl, size, h⟩
    | cons v rest =>
      rw [List.length_cons] at hfuel
      omega
  | succ fuel ih =>
    cases stack with
    | nil => exact ⟨visited, acc, rfl, size, h⟩
    | cons v rest =>
      rw [List.length_cons] at hfuel
      have hv : v < visited.size := by
        obtain ⟨x, -, hedge⟩ := h.pending v (List.mem_cons_self ..)
        rw [size]
        exact bound x v hedge
      rw [collectHelp]
      split
      · next hseen => exact ih size (h.seen hseen) (by omega)
      · next hfresh =>
        have hcost := pendingCost_insert (fun v => (neighbors adj v).length) hv hfresh
        rw [size] at hcost
        have hnext := h.visit hfresh
        rw [← members_insert hv] at hnext
        rw [foldl_push]
        refine ih (by rw [BitSet.insert_size, size]) hnext ?_
        rw [List.length_append, List.length_reverse]
        omega

/-- What is reached from an unvisited vertex outside the vertices visited before. -/
theorem collectComponent_spec (bound : ∀ v, ∀ w ∈ neighbors adj v, w < n) {start : ℕ}
    {visited : BitSet} (size : visited.size = n) (hlt : start < n)
    (hfresh : BitSet.member start visited ≠ true)
    (hfuel : ∑ v ∈ Finset.range n, (neighbors adj v).length ≤ fuel) :
    ∃ visited' others, collectComponent fuel adj start visited = some (visited', others) ∧
      visited'.size = n ∧ (others ++ [start]).Nodup ∧
      (∀ u, u ∈ members visited' ↔ u ∈ members visited ∨ u ∈ others ++ [start]) ∧
      ∀ u, u ∈ others ++ [start] ↔ Avoiding (Edge (neighbors adj)) (members visited) start u := by
  have hv : start < visited.size := by rw [size]; exact hlt
  have hnot : start ∉ members visited := hfresh
  have h := Collecting.start (neighbors adj) hnot
  rw [← members_insert hv] at h
  have hcost := pendingCost_insert (fun v => (neighbors adj v).length) hv hfresh
  have hle := pendingCost_le (fun v => (neighbors adj v).length) n visited
  rw [size] at hcost
  rw [collectComponent, foldl_push, List.append_nil]
  have hstart : (neighbors adj start).reverse.length
      + pendingCost (fun v => (neighbors adj v).length) n (visited.insert start) ≤ fuel := by
    rw [List.length_reverse]
    omega
  obtain ⟨visited', others, heq, hsize, done⟩ :=
    collectHelp_run bound (by rw [BitSet.insert_size, size]) h hstart
  exact ⟨visited', others, heq, hsize, done.nodup, done.visited_iff, done.mem_iff⟩

/-! ## All components -/

/-- The contract of an `IntGraph`. -/
structure IntGraph.Contract (g : IntGraph) : Prop where
  lengths : g.fwd.length = g.size ∧ g.trans.length = g.size
  fwd_lt : ∀ v, ∀ w ∈ neighbors g.fwd v, w < g.size
  trans_iff : ∀ v w, v ∈ neighbors g.trans w ↔ w ∈ neighbors g.fwd v
  selfLoops_iff : ∀ v, BitSet.member v g.selfLoops = true ↔ v ∈ neighbors g.fwd v

/-- Only the vertices of the array have neighbours. -/
theorem lt_of_mem_neighbors {v w : ℕ} (h : w ∈ neighbors adj v) : v < adj.length := by
  by_contra hlen
  rw [neighbors, List.getElem?_eq_none (by omega)] at h
  exact absurd h List.not_mem_nil

theorem IntGraph.Contract.trans_lt {g : IntGraph} (contract : g.Contract) (v : ℕ) :
    ∀ w ∈ neighbors g.trans v, w < g.size := by
  intro w hw
  rw [← contract.lengths.1]
  exact lt_of_mem_neighbors ((contract.trans_iff w v).mp hw)

theorem toSCC_vertices (selfLoops : BitSet) (v : ℕ) (others : List ℕ) :
    (toSCC selfLoops v others).vertices = others ++ [v] := by
  cases others with
  | nil =>
    rw [toSCC]
    split <;> rfl
  | cons first others => rfl

/-- A one-vertex component is cyclic when its vertex has an edge to itself. -/
def SCC.Marked (loop : ℕ → Prop) (c : SCC ℕ) : Prop :=
  ∀ v, c.vertices = [v] → (c = .cyclicSCC v [] ↔ loop v)

theorem toSCC_marked (selfLoops : BitSet) (v : ℕ) (others : List ℕ) :
    (toSCC selfLoops v others).Marked fun v => BitSet.member v selfLoops = true := by
  intro u hu
  rw [toSCC_vertices] at hu
  cases others with
  | nil =>
    obtain rfl := (List.cons.inj hu).1
    rw [toSCC]
    split
    · next h => simp [h]
    · next h => simp [h]
  | cons first others => simp at hu

/-- What the fold has collected after the vertices `A` of the order. -/
structure Folded (g : IntGraph) (A : List ℕ) (visited : BitSet) (sccs : List (SCC ℕ)) : Prop where
  size : visited.size = g.size
  visited_iff : ∀ u, u ∈ members visited ↔ u ∈ (sccs.map SCC.vertices).flatten
  seen : ∀ a ∈ A, a ∈ (sccs.map SCC.vertices).flatten
  components : Components (Edge (neighbors g.fwd)) (sccs.map SCC.vertices)
  marked : ∀ c ∈ sccs, c.Marked fun v => BitSet.member v g.selfLoops = true

/-- The next vertex of the order has been collected, or its component is the next. -/
theorem Folded.next {g : IntGraph} {A B : List ℕ} {v : ℕ} {visited : BitSet} {sccs : List (SCC ℕ)}
    (h : Folded g A visited sccs) (contract : g.Contract)
    (ordered : Ordered (Edge (neighbors g.trans)) (A ++ v :: B))
    (all : ∀ u, u ∈ A ++ v :: B ↔ u < g.size)
    (hfuel : ∑ v ∈ Finset.range g.size, (neighbors g.fwd v).length ≤ fuel) :
    ∃ visited' sccs', collectNext fuel g (visited, sccs) v = some (visited', sccs') ∧
      Folded g (A ++ [v]) visited' sccs' := by
  rw [collectNext]
  split
  -- the vertex belongs to a component found before
  · next hseen =>
    refine ⟨visited, sccs, rfl, h.size, h.visited_iff, fun a ha => ?_, h.components, h.marked⟩
    rcases List.mem_append.mp ha with ha | ha
    · exact h.seen a ha
    · rw [List.mem_singleton.mp ha]
      exact (h.visited_iff v).mp hseen
  · next hfresh =>
    have hlt : v < g.size := (all v).mp (by simp)
    obtain ⟨visited', others, heq, hsize, nodup, hvisited, hcomp⟩ :=
      collectComponent_spec contract.fwd_lt h.size hlt hfresh hfuel
    have hmembers : members visited = {x | x ∈ (sccs.map SCC.vertices).flatten} :=
      Set.ext h.visited_iff
    have hflip : Edge (neighbors g.trans) = flip (Edge (neighbors g.fwd)) := by
      ext x y
      exact contract.trans_iff y x
    rw [hmembers] at hcomp
    rw [hflip] at ordered
    -- what the search collects from a new vertex is its component
    have hnext := h.components.cons ordered h.seen
      (fun x y hxy => (all y).mpr (contract.fwd_lt x y hxy))
      (fun hv => hfresh ((h.visited_iff v).mpr hv)) nodup hcomp
    have hmap : ((toSCC g.selfLoops v others :: sccs).map SCC.vertices)
        = (others ++ [v]) :: sccs.map SCC.vertices := by
      rw [List.map_cons, toSCC_vertices]
    refine ⟨visited', toSCC g.selfLoops v others :: sccs, by rw [heq]; rfl, hsize, fun u => ?_,
      fun a ha => ?_, ?_, fun c hc => ?_⟩
    · rw [hvisited u, h.visited_iff u, hmap, List.flatten_cons,
        @List.mem_append _ u (others ++ [v])]
      exact Or.comm
    · rw [hmap, List.flatten_cons, List.mem_append]
      rcases List.mem_append.mp ha with ha | ha
      · exact Or.inr (h.seen a ha)
      · exact Or.inl (List.mem_append_right _ ha)
    · rw [hmap]
      exact hnext
    · rcases List.mem_cons.mp hc with rfl | hc
      · exact toSCC_marked g.selfLoops v others
      · exact h.marked c hc

/-- The components of a graph that meets its contract: every vertex once, two vertices
    together when each reaches the other, and each component after those it has an edge to. -/
theorem stronglyConnCompInt_spec {g : IntGraph} (contract : g.Contract) (hfuel : g.fuel ≤ fuel) :
    ∃ sccs, stronglyConnCompInt fuel g = some sccs ∧
      (∀ u, u ∈ (sccs.map SCC.vertices).flatten ↔ u < g.size) ∧
      Components (Edge (neighbors g.fwd)) (sccs.map SCC.vertices).reverse ∧
      ∀ c ∈ sccs, c.Marked fun v => BitSet.member v g.selfLoops = true := by
  have hboth : 1 + ∑ v ∈ Finset.range g.size, ((neighbors g.trans v).length + 1) ≤ fuel ∧
      ∑ v ∈ Finset.range g.size, (neighbors g.fwd v).length ≤ fuel := by
    rw [IntGraph.fuel] at hfuel
    omega
  obtain ⟨rpo, hrpo, -, all, ordered⟩ := reversePostOrder_spec contract.trans_lt hboth.1
  have hfold : ∀ B A visited sccs, rpo = A ++ B → Folded g A visited sccs →
      ∃ visited' sccs', B.foldlM (collectNext fuel g) (visited, sccs) = some (visited', sccs') ∧
        Folded g rpo visited' sccs' := by
    intro B
    induction B with
    | nil =>
      intro A visited sccs hsplit h
      rw [List.append_nil] at hsplit
      exact ⟨visited, sccs, rfl, hsplit ▸ h⟩
    | cons v B ih =>
      intro A visited sccs hsplit h
      obtain ⟨visited', sccs', heq, h'⟩ :=
        h.next contract (hsplit ▸ ordered) (hsplit ▸ all) hboth.2
      obtain ⟨visited'', sccs'', heq', h''⟩ := ih (A ++ [v]) visited' sccs' (by simp [hsplit]) h'
      exact ⟨visited'', sccs'', by rw [List.foldlM_cons, heq]; exact heq', h''⟩
  have hstart : Folded g [] (BitSet.emptyWithSize g.size) [] := by
    refine ⟨rfl, fun u => ?_, fun a ha => absurd ha List.not_mem_nil, Components.nil,
      fun c hc => absurd hc List.not_mem_nil⟩
    simp [members, BitSet.member_emptyWithSize]
  obtain ⟨visited, sccs, heq, h⟩ := hfold rpo [] _ _ rfl hstart
  have hcomp : stronglyConnCompInt fuel g = some sccs.reverse := by
    rw [stronglyConnCompInt, hrpo]
    simp only [Option.bind_eq_bind, Option.bind_some]
    rw [heq]
    rfl
  refine ⟨sccs.reverse, hcomp, fun u => ?_, ?_, fun c hc => h.marked c (List.mem_reverse.mp hc)⟩
  · have hperm : (sccs.reverse.map SCC.vertices).flatten.Perm (sccs.map SCC.vertices).flatten :=
      ((List.reverse_perm sccs).map _).flatten
    rw [hperm.mem_iff]
    refine ⟨fun hu => ?_, fun hu => h.seen u ((all u).mpr hu)⟩
    rw [← h.size]
    exact (BitSet.member_iff.mp ((h.visited_iff u).mpr hu)).1
  · rw [List.map_reverse, List.reverse_reverse]
    exact h.components

end Graph

import EcoCompiler.GraphBuild

/-! # The components of a list of triples

    * `depends_numbering` — the sorted triples number the nodes, and their edges are the
      dependencies that name a node;
    * `stronglyConnComp_spec` — the components, for every list of triples with distinct keys. -/

namespace Graph

open DepthFirst Relation

variable {N κ : Type} {s : List (Triple N κ)}

/-! ## Components of triples -/

/-- A component whose vertices all have triples keeps its kind. -/
theorem sccToTriples_spec {c : SCC ℕ} (hc : ∀ v ∈ c.vertices, v < s.length) :
    ∃ c', sccToTriples s c = some c' ∧ c'.vertices = c.vertices.filterMap (fun v => s[v]?) ∧
      ∀ v a, s[v]? = some a → c.vertices = [v] →
        (c' = .cyclicSCC a [] ↔ c = .cyclicSCC v []) := by
  cases c with
  | acyclicSCC v =>
    have hlt : v < s.length := hc v (List.mem_cons_self ..)
    have hv : s[v]? = some s[v] := List.getElem?_eq_getElem hlt
    refine ⟨.acyclicSCC s[v], ?_, ?_, fun u a _ _ => ?_⟩
    · rw [sccToTriples, hv]
      rfl
    · simp [SCC.vertices, hv]
    · simp
  | cyclicSCC v vs =>
    have hlt : v < s.length := hc v (List.mem_cons_self ..)
    have hv : s[v]? = some s[v] := List.getElem?_eq_getElem hlt
    have hmap : (v :: vs).filterMap (fun i => s[i]?)
        = s[v] :: vs.filterMap (fun i => s[i]?) := by
      rw [List.filterMap_cons, hv]
    refine ⟨.cyclicSCC s[v] (vs.filterMap fun i => s[i]?), ?_, hmap.symm, fun u a hu hsingle => ?_⟩
    · rw [sccToTriples, hmap]
    · obtain ⟨rfl, rfl⟩ := List.cons.inj hsingle
      obtain rfl := Option.some.inj (hv.symm.trans hu)
      simp

/-- The components of triples, from those of vertices. -/
theorem filterMap_sccToTriples {sccs : List (SCC ℕ)}
    (hsccs : ∀ u ∈ (sccs.map SCC.vertices).flatten, u < s.length) :
    (sccs.filterMap (sccToTriples s)).map SCC.vertices
        = (sccs.map SCC.vertices).map (fun c => c.filterMap fun v => s[v]?) ∧
      ∀ c' ∈ sccs.filterMap (sccToTriples s), ∀ a, c'.vertices = [a] →
        ∃ c ∈ sccs, ∃ v, s[v]? = some a ∧ c.vertices = [v] ∧
          (c' = .cyclicSCC a [] ↔ c = .cyclicSCC v []) := by
  induction sccs with
  | nil => exact ⟨rfl, fun c' hc' => absurd hc' List.not_mem_nil⟩
  | cons c sccs ih =>
    rw [List.map_cons, List.flatten_cons] at hsccs
    obtain ⟨hmap, hmarked⟩ := ih fun u hu => hsccs u (List.mem_append_right _ hu)
    have hlt : ∀ v ∈ c.vertices, v < s.length := fun v hv => hsccs v (List.mem_append_left _ hv)
    obtain ⟨c', hc', hvertices, hkind⟩ := sccToTriples_spec hlt
    rw [List.filterMap_cons, hc']
    refine ⟨?_, fun d hd a ha => ?_⟩
    · rw [List.map_cons, hmap, hvertices]
      rfl
    · rcases List.mem_cons.mp hd with rfl | hd
      · -- no vertex is left out, so one triple means one vertex
        have hlen : (c.vertices.filterMap fun v => s[v]?).length = c.vertices.length := by
          refine List.filterMap_length_eq_length.mpr fun v hv => ?_
          rw [List.getElem?_eq_getElem (hlt v hv)]
          rfl
        rw [← hvertices, ha] at hlen
        obtain ⟨v, hv⟩ := List.length_eq_one_iff.mp hlen.symm
        have hname : s[v]? = some a := by
          rw [hv, ha] at hvertices
          have hmem : a ∈ [v].filterMap fun v => s[v]? := hvertices ▸ List.mem_singleton_self a
          obtain ⟨u, hu, hua⟩ := List.mem_filterMap.mp hmem
          rwa [List.mem_singleton.mp hu] at hua
        exact ⟨c, List.mem_cons_self .., v, hname, hv, hkind v a hname hv⟩
      · obtain ⟨e, he, hrest⟩ := hmarked d hd a ha
        exact ⟨e, List.mem_cons_of_mem _ he, hrest⟩

/-! ## The sorted triples -/

variable [LinearOrder κ]

/-- A node depends on another when it lists the other's key. -/
def Depends (edges : List (Triple N κ)) (a b : Triple N κ) : Prop := b ∈ edges ∧ b.key ∈ a.deps

theorem sortByKey_perm (edges : List (Triple N κ)) : (sortByKey edges).Perm edges :=
  List.perm_insertionSort _ edges

/-- Distinct keys stand in ascending order. -/
theorem sortByKey_ascending {edges : List (Triple N κ)} (distinct : (edges.map Triple.key).Nodup) :
    ((sortByKey edges).map Triple.key).Pairwise (· < ·) := by
  have : Std.Total fun a b : Triple N κ => a.key ≤ b.key := ⟨fun a b => le_total a.key b.key⟩
  have : IsTrans (Triple N κ) fun a b => a.key ≤ b.key := ⟨fun a b c hab hbc => le_trans hab hbc⟩
  have hle : (sortByKey edges).Pairwise fun a b => a.key ≤ b.key :=
    List.pairwise_insertionSort _ edges
  have hne : ((sortByKey edges).map Triple.key).Nodup :=
    ((sortByKey_perm edges).map Triple.key).nodup_iff.mpr distinct
  have hkeys : ((sortByKey edges).map Triple.key).Pairwise (· ≤ ·) := List.pairwise_map.mpr hle
  exact (hkeys.and hne).imp fun h => lt_of_le_of_ne h.1 h.2

/-- A key is looked up by its place among the sorted triples. -/
theorem keyToId_eq_some_iff (ascending : (s.map Triple.key).Pairwise (· < ·)) (k : κ) (i : ℕ) :
    binarySearch (s.map Triple.key) k 0 (((s.map Triple.key).length : ℤ) - 1) = some i ↔
      (s.map Triple.key)[i]? = some k := by
  refine (binarySearch_spec ascending k 0 _ le_rfl (by omega) i).trans ?_
  constructor
  · exact fun h => h.2.2
  · intro h
    have hlt := (List.getElem?_eq_some_iff.mp h).1
    exact ⟨by omega, by omega, h⟩

theorem graphOf_contract (ascending : (s.map Triple.key).Pairwise (· < ·)) :
    (graphOf s).Contract := by
  have hlen : (s.map Triple.key).length = s.length := List.length_map ..
  have contract := buildGraphs_contract (fun target =>
    binarySearch (s.map Triple.key) target 0 (((s.map Triple.key).length : ℤ) - 1)) s
    fun k i h => by
      have hget := (keyToId_eq_some_iff ascending k i).mp h
      rw [← hlen]
      exact (List.getElem?_eq_some_iff.mp hget).1
  rw [← hlen] at contract
  exact contract

theorem graphOf_size (s : List (Triple N κ)) : (graphOf s).size = s.length := List.length_map ..

/-- The edges between the places of the sorted triples. -/
theorem edge_graphOf (ascending : (s.map Triple.key).Pairwise (· < ·)) (i j : ℕ) :
    Edge (neighbors (graphOf s).fwd) i j ↔
      ∃ a b, s[i]? = some a ∧ s[j]? = some b ∧ b.key ∈ a.deps := by
  have hedges : neighbors (graphOf s).fwd i = edgesAt (fun target =>
      binarySearch (s.map Triple.key) target 0 (((s.map Triple.key).length : ℤ) - 1)) s i := by
    have h := neighbors_fwd (fun target =>
      binarySearch (s.map Triple.key) target 0 (((s.map Triple.key).length : ℤ) - 1)) s i
    rw [← h, graphOf, List.length_map]
  rw [Edge, hedges, edgesAt]
  cases hs : s[i]? with
  | none => simp
  | some a =>
    simp only [Option.map_some, Option.getD_some, List.mem_filterMap, keyToId_eq_some_iff ascending,
      List.getElem?_map, Option.map_eq_some_iff, Option.some.injEq]
    constructor
    · rintro ⟨k, hk, b, hb, rfl⟩
      exact ⟨a, b, rfl, hb, hk⟩
    · rintro ⟨a, b, rfl, hb, hk⟩
      exact ⟨b.key, hk, b, hb, rfl⟩

/-- The sorted triples number the nodes. -/
theorem depends_numbering {edges : List (Triple N κ)} (hperm : s.Perm edges)
    (ascending : (s.map Triple.key).Pairwise (· < ·)) :
    Numbering (Edge (neighbors (graphOf s).fwd)) (Depends edges) fun i => s[i]? where
  inj i j a hi hj := by
    have hnodup : s.Nodup := List.Nodup.of_map Triple.key (ascending.imp fun h => h.ne)
    obtain ⟨hilt, heq⟩ := List.getElem?_eq_some_iff.mp hi
    obtain ⟨hjlt, heq'⟩ := List.getElem?_eq_some_iff.mp hj
    exact (hnodup.getElem_inj_iff).mp (heq.trans heq'.symm)
  edge i a b ha := by
    constructor
    · rintro ⟨hb, hkey⟩
      obtain ⟨j, hj⟩ := List.mem_iff_getElem?.mp (hperm.mem_iff.mpr hb)
      exact ⟨j, hj, (edge_graphOf ascending i j).mpr ⟨a, b, ha, hj, hkey⟩⟩
    · rintro ⟨j, hj, hedge⟩
      obtain ⟨a', b', ha', hb', hkey⟩ := (edge_graphOf ascending i j).mp hedge
      obtain rfl := Option.some.inj (ha.symm.trans ha')
      obtain rfl := Option.some.inj (hj.symm.trans hb')
      exact ⟨hperm.mem_iff.mp (List.mem_of_getElem? hj), hkey⟩
  named i j a ha hedge := by
    obtain ⟨-, b, -, hb, -⟩ := (edge_graphOf ascending i j).mp hedge
    exact ⟨b, hb⟩

/-! ## The components -/

/-- The triples give a graph that meets its contract, and enough fuel gives their components:
    each triple once, two of them together when each depends on the other, directly or through
    others, each component after those it depends on, and a component of one node cyclic
    exactly when the node lists its own key. -/
theorem stronglyConnComp_spec {edges : List (Triple N κ)}
    (distinct : (edges.map Triple.key).Nodup) :
    (graphOf (sortByKey edges)).Contract ∧
    ∀ fuel, (graphOf (sortByKey edges)).fuel ≤ fuel →
      ∃ sccs, stronglyConnComp fuel edges = some (sccs.map SCC.nodes) ∧
        (sccs.map SCC.vertices).flatten.Perm edges ∧
        (∀ a ∈ edges, ∀ b ∈ edges,
          (∃ c ∈ sccs, a ∈ c.vertices ∧ b ∈ c.vertices) ↔ Mutual (Depends edges) a b) ∧
        (∀ before c after, sccs = before ++ c :: after →
          ∀ a ∈ c.vertices, ∀ b, Depends edges a b →
            b ∈ c.vertices ∨ ∃ d ∈ before, b ∈ d.vertices) ∧
        ∀ c ∈ sccs, ∀ a, c.vertices = [a] → (c = .cyclicSCC a [] ↔ a.key ∈ a.deps) := by
  have ascending := sortByKey_ascending distinct
  have contract := graphOf_contract ascending
  refine ⟨contract, fun fuel hfuel => ?_⟩
  have hperm := sortByKey_perm edges
  -- the search runs over positions; `numbering` takes what it finds back to the triples
  have numbering := depends_numbering hperm ascending
  obtain ⟨sccs, hint, hall, components, marked⟩ := stronglyConnCompInt_spec contract hfuel
  rw [graphOf_size] at hall
  obtain ⟨hmap, hmarked⟩ := filterMap_sccToTriples fun u hu => (hall u).mp hu
  have hcomponents := components.numbered numbering
  rw [List.map_reverse, ← hmap] at hcomponents
  -- every triple is found, since every position is
  have hmem : ∀ a, a ∈ ((sccs.filterMap (sccToTriples (sortByKey edges))).map
      SCC.vertices).flatten ↔ a ∈ edges := by
    intro a
    rw [hmap, ← List.filterMap_flatten, List.mem_filterMap, ← hperm.mem_iff,
      List.mem_iff_getElem?]
    constructor
    · rintro ⟨i, -, hi⟩
      exact ⟨i, hi⟩
    · rintro ⟨i, hi⟩
      exact ⟨i, (hall i).mpr (List.getElem?_eq_some_iff.mp hi).1, hi⟩
  refine ⟨sccs.filterMap (sccToTriples (sortByKey edges)), ?_, ?_, fun a ha b _ => ?_,
    fun before c after hsplit a ha b hab => ?_, fun c hc a ha => ?_⟩
  · have hR : stronglyConnCompR fuel edges
        = some (sccs.filterMap (sccToTriples (sortByKey edges))) := by
      -- the source answers an empty list without a search
      cases edges with
      | nil =>
        have hsccs : sccs.filterMap (sccToTriples (sortByKey ([] : List (Triple N κ)))) = [] := by
          refine List.eq_nil_iff_forall_not_mem.mpr fun c hc => ?_
          obtain ⟨a, ha⟩ : ∃ a, a ∈ c.vertices := by
            cases c with
            | acyclicSCC a => exact ⟨a, List.mem_cons_self ..⟩
            | cyclicSCC a as => exact ⟨a, List.mem_cons_self ..⟩
          have hflat := List.mem_flatten.mpr ⟨_, List.mem_map_of_mem hc, ha⟩
          exact List.not_mem_nil ((hmem a).mp hflat)
        rw [hsccs]
        rfl
      | cons t edges =>
        rw [stronglyConnCompR, hint]
        · rfl
        · rintro ⟨⟩
    rw [stronglyConnComp, hR]
    rfl
  · have hnodup := hcomponents.nodup
    rw [((List.reverse_perm _).flatten).nodup_iff] at hnodup
    exact (List.perm_ext_iff_of_nodup hnodup (List.Nodup.of_map _ distinct)).mpr hmem
  · constructor
    · rintro ⟨c, hc, hac, hbc⟩
      have hc' := List.mem_reverse.mpr (List.mem_map_of_mem (f := SCC.vertices) hc)
      exact (hcomponents.classes _ hc' a hac b).mp hbc
    · intro hab
      obtain ⟨d, hd, had⟩ := List.mem_flatten.mp ((hmem a).mpr ha)
      obtain ⟨c, hc, rfl⟩ := List.mem_map.mp hd
      exact ⟨c, hc, had, (hcomponents.classes _ (List.mem_reverse.mpr hd) a had b).mpr hab⟩
  -- the components come out in the order of the search, dependencies first
  · rw [hsplit] at hcomponents
    have hbefore := hcomponents.sorted.before (List.map_append ..) ha hab
    refine hbefore.imp_right ?_
    rintro ⟨d, hd, hb⟩
    obtain ⟨d', hd', rfl⟩ := List.mem_map.mp hd
    exact ⟨d', hd', hb⟩
  · obtain ⟨e, he, v, hv, hsingle, hkind⟩ := hmarked c hc a ha
    refine hkind.trans ((marked e he v hsingle).trans ?_)
    refine ((contract.selfLoops_iff v).trans (edge_graphOf ascending v v)).trans ?_
    simp [hv]

/-- Two nodes that depend on each other, and one that depends on them and on itself. -/
theorem stronglyConnComp_spec_three : ∃ sccs : List (SCC (Triple ℕ ℕ)),
    stronglyConnComp (graphOf (sortByKey [⟨10, 1, [2]⟩, ⟨20, 3, [3, 1, 7]⟩, ⟨30, 2, [1]⟩])).fuel
        [⟨10, 1, [2]⟩, ⟨20, 3, [3, 1, 7]⟩, ⟨30, 2, [1]⟩] = some (sccs.map SCC.nodes) ∧
      (sccs.map SCC.vertices).flatten.Perm
        [⟨10, 1, [2]⟩, ⟨20, 3, [3, 1, 7]⟩, ⟨30, 2, [1]⟩] := by
  have distinct : (([⟨10, 1, [2]⟩, ⟨20, 3, [3, 1, 7]⟩, ⟨30, 2, [1]⟩] :
      List (Triple ℕ ℕ)).map Triple.key).Nodup := by decide
  obtain ⟨sccs, heq, hperm, -⟩ := (stronglyConnComp_spec distinct).2 _ le_rfl
  exact ⟨sccs, heq, hperm⟩

end Graph

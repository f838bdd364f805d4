import EcoCompiler.GraphBuild
import EcoCompiler.Prune

/-! # What a prune keeps

    * `markReachable_spec` — the search ends, and has marked what the roots reach;
    * `pruneUnreachableWith_pruned` — what is kept, and that nothing kept refers to what is not;
    * `restrictToSccEdges_restricted` — an edge is kept when its two ends reach each other, and so
      the cycles are the same. -/

namespace Prune

open Graph DepthFirst Relation

/-! ## Reaching -/

variable {edges : List (Option (List ℤ))}

/-- The row of the first id has the second. -/
def Refers (edges : List (Option (List ℤ))) (a b : ℤ) : Prop :=
  ∃ row, arrayGet edges a = some (some row) ∧ b ∈ row

/-- The id is reached from one of the roots. -/
def Live (edges : List (Option (List ℤ))) (roots : List ℤ) (i : ℤ) : Prop :=
  ∃ r ∈ roots, ReflTransGen (Refers edges) r i

theorem arrayGet_eq_some {α : Type} {arr : List α} {i : ℤ} {x : α} :
    arrayGet arr i = some x ↔ 0 ≤ i ∧ arr[i.toNat]? = some x := by
  rcases lt_or_ge i 0 with h | h
  · rw [arrayGet, if_pos h]
    exact iff_of_false (by rintro ⟨⟩) fun h' => absurd h'.1 h.not_ge
  · rw [arrayGet_of_nonneg arr h]
    simp [h]

/-- References from a table row are the members of its list. -/
theorem refers_natCast {a : ℕ} {b : ℤ} :
    Refers edges a b ↔ ∃ row, edges[a]? = some (some row) ∧ b ∈ row := by
  simp [Refers, arrayGet_eq_some]

/-- Only an id in the range of the table has a row. -/
theorem Refers.range {a b : ℤ} (h : Refers edges a b) : 0 ≤ a ∧ a < edges.length := by
  obtain ⟨row, hrow, -⟩ := h
  obtain ⟨hnonneg, hget⟩ := arrayGet_eq_some.mp hrow
  have hlt : a.toNat < edges.length := by
    by_contra hle
    rw [List.getElem?_eq_none (by omega)] at hget
    cases hget
  omega

/-- What the search pushes for an id. -/
def successors (edges : List (Option (List ℤ))) (specId : ℤ) : List ℤ :=
  ((arrayGet edges specId).bind id).getD []

theorem mem_successors {a b : ℤ} : b ∈ successors edges a ↔ Refers edges a b := by
  rw [successors, Refers]
  cases h : arrayGet edges a with
  | none => simp
  | some entry =>
    cases entry with
    | none => simp
    | some row => simp

/-- One round of the marking loop. -/
theorem markReachable_cons (fuel : ℕ) (specId : ℤ) (rest : List ℤ) (visited : BitSet) :
    markReachable edges (fuel + 1) (specId :: rest) visited =
      if member specId visited then markReachable edges fuel rest visited
      else markReachable edges fuel (successors edges specId ++ rest) (insert specId visited) := by
  rw [markReachable, successors]
  dsimp only
  cases (arrayGet edges specId).bind id with
  | none => rfl
  | some row => rfl

theorem member_natCast (i : ℕ) (set : BitSet) : member i set = BitSet.member i set := by
  rw [member, if_neg (by omega), Int.toNat_natCast]

theorem insert_natCast (i : ℕ) (set : BitSet) : insert i set = BitSet.insert i set := by
  rw [insert, if_neg (by omega), Int.toNat_natCast]

/-- Only ids inside the bitmap are members. -/
theorem member_range {i : ℤ} {set : BitSet} (h : member i set = true) : 0 ≤ i ∧ i < set.size := by
  rw [member] at h
  split at h
  · cases h
  · have hlt := (BitSet.member_iff.mp h).1
    omega

theorem insert_size (i : ℤ) (set : BitSet) : (insert i set).size = set.size := by
  rw [insert]
  split
  · rfl
  · exact BitSet.insert_size ..

/-- Inserting an id outside the bitmap does nothing. -/
theorem insert_out {i : ℤ} {set : BitSet} (h : ¬ (0 ≤ i ∧ i < set.size)) : insert i set = set := by
  rw [insert]
  split
  · rfl
  · rw [BitSet.insert, if_pos (by omega)]

/-- Inside the bitmap insertion adds the id and nothing else. -/
theorem member_insert {i : ℤ} {set : BitSet} (h : 0 ≤ i ∧ i < set.size) (j : ℤ) :
    member j (insert i set) = true ↔ j = i ∨ member j set = true := by
  obtain ⟨n, rfl⟩ := Int.eq_ofNat_of_zero_le h.1
  rw [insert_natCast, member, member]
  split
  · next hneg =>
    constructor
    · intro hfalse
      cases hfalse
    · rintro (rfl | hfalse)
      · omega
      · cases hfalse
  · rw [BitSet.member_insert (by omega)]
    refine or_congr ?_ Iff.rfl
    omega

/-! ## The search -/

/-- In the middle of the search: what is marked or pending is reached, and what a marked id
    or a root leads to is marked, pending or out of the set's range. -/
structure Marking (edges : List (Option (List ℤ))) (roots stack : List ℤ) (visited : BitSet) :
    Prop where
  pending : ∀ i ∈ stack, Live edges roots i
  marked : ∀ i, member i visited = true → Live edges roots i
  known : ∀ r ∈ roots, 0 ≤ r ∧ r < visited.size → r ∈ stack ∨ member r visited = true
  next : ∀ i j, member i visited = true → Refers edges i j → 0 ≤ j ∧ j < visited.size →
    j ∈ stack ∨ member j visited = true

variable {roots stack rest : List ℤ} {visited : BitSet} {n fuel : ℕ}

/-- What a live node refers to is live. -/
theorem Live.next {i j : ℤ} (h : Live edges roots i) (hij : Refers edges i j) :
    Live edges roots j := by
  obtain ⟨r, hr, path⟩ := h
  exact ⟨r, hr, path.tail hij⟩

/-- Before the first round the roots wait and nothing is marked. -/
theorem Marking.start (roots : List ℤ) (n : ℕ) :
    Marking edges roots roots (BitSet.fromSize n) := by
  have hempty : ∀ i, member i (BitSet.fromSize n) ≠ true := by
    intro i hi
    rw [member] at hi
    split at hi
    · cases hi
    · have hstored := (BitSet.member_iff.mp hi).2
      rw [BitSet.stored_fromSize] at hstored
      cases hstored
  exact ⟨fun i hi => ⟨i, hi, ReflTransGen.refl⟩, fun i hi => absurd hi (hempty i),
    fun r hr _ => Or.inl hr, fun i _ hi => absurd hi (hempty i)⟩

/-- An id that is marked, or that lies outside the set's range, is dropped. -/
theorem Marking.drop {v : ℤ} (h : Marking edges roots (v :: rest) visited)
    (hv : 0 ≤ v ∧ v < visited.size → member v visited = true) :
    Marking edges roots rest visited where
  pending i hi := h.pending i (List.mem_cons_of_mem v hi)
  marked := h.marked
  known r hr hrange := by
    rcases h.known r hr hrange with hmem | hmem
    · rcases List.mem_cons.mp hmem with rfl | hmem
      · exact Or.inr (hv hrange)
      · exact Or.inl hmem
    · exact Or.inr hmem
  next i j hi hij hrange := by
    rcases h.next i j hi hij hrange with hmem | hmem
    · rcases List.mem_cons.mp hmem with rfl | hmem
      · exact Or.inr (hv hrange)
      · exact Or.inl hmem
    · exact Or.inr hmem

/-- An id that is not is marked, and what it refers to is pending. -/
theorem Marking.visit {v : ℤ} (h : Marking edges roots (v :: rest) visited)
    (hv : 0 ≤ v ∧ v < visited.size) :
    Marking edges roots (successors edges v ++ rest) (insert v visited) := by
  have live : Live edges roots v := h.pending v (List.mem_cons_self ..)
  have moved : ∀ j, j ∈ v :: rest ∨ member j visited = true →
      j ∈ successors edges v ++ rest ∨ member j (insert v visited) = true := by
    rintro j (hj | hj)
    · rcases List.mem_cons.mp hj with rfl | hj
      · exact Or.inr ((member_insert hv j).mpr (Or.inl rfl))
      · exact Or.inl (List.mem_append_right _ hj)
    · exact Or.inr ((member_insert hv j).mpr (Or.inr hj))
  refine ⟨fun i hi => ?_, fun i hi => ?_, fun r hr hrange => ?_, fun i j hi hij hrange => ?_⟩
  · rcases List.mem_append.mp hi with hi | hi
    · exact live.next (mem_successors.mp hi)
    · exact h.pending i (List.mem_cons_of_mem v hi)
  · rcases (member_insert hv i).mp hi with rfl | hi
    · exact live
    · exact h.marked i hi
  · rw [insert_size] at hrange
    exact moved r (h.known r hr hrange)
  · rw [insert_size] at hrange
    rcases (member_insert hv i).mp hi with rfl | hi
    · exact Or.inl (List.mem_append_left _ (mem_successors.mpr hij))
    · exact moved j (h.next i j hi hij hrange)

/-- Once nothing is pending, what is marked is what is reached in the set's range. -/
theorem Marking.done (h : Marking edges roots [] visited) (short : edges.length ≤ visited.size)
    (i : ℤ) : member i visited = true ↔ (0 ≤ i ∧ i < visited.size) ∧ Live edges roots i := by
  constructor
  · intro hi
    exact ⟨member_range hi, h.marked i hi⟩
  · rintro ⟨hrange, r, hr, path⟩
    induction path with
    | refl => exact (h.known r hr hrange).resolve_left List.not_mem_nil
    | @tail j i path hij ih =>
      -- only an id in the range has a row
      have hj := hij.range
      exact (h.next j i (ih (by omega)) hij hrange).resolve_left List.not_mem_nil

/-- What an id may still cost. -/
def cost (edges : List (Option (List ℤ))) (v : ℕ) : ℕ := (successors edges v).length

/-- With fuel for the work that waits, the loop ends with every waiting node and what it reaches
    marked. -/
theorem markReachable_run (short : edges.length ≤ n) (size : visited.size = n)
    (h : Marking edges roots stack visited)
    (hfuel : stack.length + pendingCost (cost edges) n visited ≤ fuel) :
    ∃ visited', markReachable edges fuel stack visited = some visited' ∧ visited'.size = n ∧
      Marking edges roots [] visited' := by
  induction fuel generalizing stack visited with
  | zero =>
    cases stack with
    | nil => exact ⟨visited, rfl, size, h⟩
    | cons v rest =>
      rw [List.length_cons] at hfuel
      omega
  | succ fuel ih =>
    cases stack with
    | nil => exact ⟨visited, rfl, size, h⟩
    | cons v rest =>
      rw [List.length_cons] at hfuel
      rw [markReachable_cons]
      -- an id outside the table has no successors and is never marked
      by_cases hrange : 0 ≤ v ∧ v < visited.size
      · split
        · next hseen => exact ih size (h.drop fun _ => hseen) (by omega)
        · next hfresh =>
          obtain ⟨u, rfl⟩ := Int.eq_ofNat_of_zero_le hrange.1
          rw [member_natCast] at hfresh
          have hcost := pendingCost_insert (cost edges) (Int.ofNat_lt.mp hrange.2) hfresh
          rw [size, cost] at hcost
          refine ih (by rw [insert_size, size]) (h.visit hrange) ?_
          rw [List.length_append, insert_natCast]
          omega
      · have hnone : successors edges v = [] := by
          refine List.eq_nil_iff_forall_not_mem.mpr fun j hj => hrange ?_
          have := (mem_successors.mp hj).range
          omega
        have hdrop : Marking edges roots rest visited := h.drop fun hv => absurd hv hrange
        split
        · exact ih size hdrop (by omega)
        · rw [hnone, List.nil_append, insert_out hrange]
          exact ih size hdrop (by omega)

/-- The fuel that a search from these roots over these rows needs. -/
def searchFuel (edges : List (Option (List ℤ))) (roots : List ℤ) (n : ℕ) : ℕ :=
  roots.length + ∑ v ∈ Finset.range n, (successors edges v).length

/-- The search ends, and has marked exactly the ids that the roots reach. -/
theorem markReachable_spec (short : edges.length ≤ n) (hfuel : searchFuel edges roots n ≤ fuel) :
    ∃ live, markReachable edges fuel roots (BitSet.fromSize n) = some live ∧
      ∀ i : ℕ, BitSet.member i live = true ↔ i < n ∧ Live edges roots i := by
  have hcost := pendingCost_le (cost edges) n (BitSet.fromSize n)
  have hstart : roots.length + pendingCost (cost edges) n (BitSet.fromSize n) ≤ fuel :=
    (Nat.add_le_add_left hcost _).trans hfuel
  obtain ⟨live, heq, hsize, done⟩ := markReachable_run short rfl (Marking.start roots n) hstart
  refine ⟨live, heq, fun i => ?_⟩
  rw [← member_natCast, done.done (by omega), hsize]
  refine and_congr ?_ Iff.rfl
  omega

/-! ## What is kept -/

section

variable {Mapping Counts Global Ty Node Shapes Lss : Type}

/-- What the startup preamble refers to: `main`, the decoders of the ports and that of the
    flags. -/
def MonoGraph.IsRoot (record : MonoGraph Mapping Counts Global Ty Node Shapes Lss) (i : ℤ) : Prop :=
  i = record.main ∨ (∃ port ∈ record.ports, port.decoderSpecId = some i) ∨
    record.flagsDecoder = some i

theorem mem_roots {record : MonoGraph Mapping Counts Global Ty Node Shapes Lss} {i : ℤ} :
    i ∈ record.roots ↔ record.IsRoot i := by
  rw [MonoGraph.roots, MonoGraph.IsRoot]
  cases record.flagsDecoder with
  | none => simp
  | some specId => simp [eq_comm]

/-- The id is reached from a root. -/
def Reached (edges : List (Option (List ℤ)))
    (record : MonoGraph Mapping Counts Global Ty Node Shapes Lss) (i : ℤ) : Prop :=
  ∃ r, record.IsRoot r ∧ ReflTransGen (Refers edges) r i

/-- Of a table, the rows of the ids of a set are left, each transformed, where they were. -/
def Keeps {α : Type} (kept : ℤ → Prop) (close : α → α) (before after : List (Option α)) : Prop :=
  after.length = before.length ∧
    ∀ i : ℕ, (kept i → after[i]? = before[i]?.map (Option.map close)) ∧
      (¬ kept i → after[i]? = before[i]?.map fun _ => none)

/-- A table filtered by the bitmap keeps the live entries and no others. -/
theorem keeps_mapIdx {α : Type} {kept : ℤ → Prop} {live : BitSet} {table : List (Option α)}
    (close : α → α) (h : ∀ i < table.length, BitSet.member i live = true ↔ kept i) :
    Keeps kept close table
      (table.mapIdx fun i entry => if BitSet.member i live then entry.map close else none) := by
  refine ⟨List.length_mapIdx, fun i => ⟨fun hi => ?_, fun hi => ?_⟩⟩
  · rw [List.getElem?_mapIdx]
    rcases Nat.lt_or_ge i table.length with hlt | hge
    · rw [List.getElem?_eq_getElem hlt, Option.map_some, if_pos ((h i hlt).mpr hi)]
      rfl
    · rw [List.getElem?_eq_none hge]
      rfl
  · rw [List.getElem?_mapIdx]
    rcases Nat.lt_or_ge i table.length with hlt | hge
    · rw [List.getElem?_eq_getElem hlt, Option.map_some, if_neg (hi ∘ (h i hlt).mp)]
      rfl
    · rw [List.getElem?_eq_none hge]
      rfl

theorem Keeps.arrayGet {α : Type} {kept : ℤ → Prop} {close : α → α} {before after : List (Option α)}
    (h : Keeps kept close before after) {t : ℤ} (ht : kept t) :
    arrayGet after t = (arrayGet before t).map (Option.map close) := by
  rcases lt_or_ge t 0 with hneg | hnonneg
  · rw [Graph.arrayGet, Graph.arrayGet, if_pos hneg, if_pos hneg]
    rfl
  · obtain ⟨i, rfl⟩ := Int.eq_ofNat_of_zero_le hnonneg
    rw [arrayGet_of_nonneg _ hnonneg, arrayGet_of_nonneg _ hnonneg]
    exact (h.2 i).1 ht

/-- Two tables that keep the same entries are equal. -/
theorem Keeps.unique {α : Type} {kept : ℤ → Prop} {close : α → α}
    {before after after' : List (Option α)} (h : Keeps kept close before after)
    (h' : Keeps kept close before after') : after = after' := by
  refine List.ext_getElem? fun i => ?_
  by_cases hi : kept i
  · rw [(h.2 i).1 hi, (h'.2 i).1 hi]
  · rw [(h.2 i).2 hi, (h'.2 i).2 hi]

/-- How a kept entry of `reverseMapping` is closed. -/
def Closer.entry (closer : Closer Ty Node Shapes) (pair : Global × Ty) : Global × Ty :=
  if closer.hasResidual pair.2 then (pair.1, closer.tipe pair.2) else pair

variable [EmptyCollection Mapping] [EmptyCollection Counts]

/-- What is the same in the pruned graph, and what is kept of the rest of it. -/
structure Pruned (refs : Node → List ℤ) (edges : List (Option (List ℤ)))
    (closer : Closer Ty Node Shapes)
    (record pruned : MonoGraph Mapping Counts Global Ty Node Shapes Lss) : Prop where
  nodes : Keeps (Reached edges record) closer.node record.nodes pruned.nodes
  callEdges : Keeps (Reached edges record) id edges pruned.callEdges
  reverseMapping : Keeps (Reached edges record) closer.entry record.registry.reverseMapping
    pruned.registry.reverseMapping
  referred : ∀ (i : ℕ) node, pruned.nodes[i]? = some (some node) → ∀ t ∈ refs node,
    arrayGet pruned.nodes t = (arrayGet record.nodes t).map (Option.map closer.node)
  roots : pruned.main = record.main ∧ pruned.ports = record.ports ∧
    pruned.flagsDecoder = record.flagsDecoder
  nextId : pruned.registry.nextId = record.registry.nextId

/-- A prune ends, and keeps exactly what the roots reach, where it was; nothing that is kept
    refers to what is removed. -/
theorem pruneUnreachableWith_pruned {record : MonoGraph Mapping Counts Global Ty Node Shapes Lss}
    {closer : Closer Ty Node Shapes} {refs : Node → List ℤ}
    (closed : ∀ node, refs (closer.node node) = refs node)
    (lists : ∀ (i : ℕ) node, record.nodes[i]? = some (some node) →
      ∀ t ∈ refs node, Refers edges i t)
    (short : edges.length ≤ record.registry.nextId)
    (hfuel : searchFuel edges record.roots record.registry.nextId ≤ fuel) :
    ∃ pruned, pruneUnreachableWith fuel edges closer record = some pruned ∧
      Pruned refs edges closer record pruned := by
  obtain ⟨live, heq, hlive⟩ := markReachable_spec short hfuel
  -- what is marked is what the roots reach
  have hiff : ∀ i : ℕ, i < record.registry.nextId →
      (BitSet.member i live = true ↔ Reached edges record i) := by
    intro i hi
    rw [hlive, Live, Reached]
    simp only [mem_roots, hi, true_and]
  have hnodes : Keeps (Reached edges record) closer.node record.nodes
      (rebuild live edges closer record).nodes :=
    keeps_mapIdx closer.node fun i hi => hiff i (hi.trans_le record.nodes_le)
  refine ⟨rebuild live edges closer record, ?_, hnodes, ?_, ?_, fun i node hnode t ht => ?_,
    ⟨rfl, rfl, rfl⟩, rfl⟩
  · rw [pruneUnreachableWith, reachableFromMain, heq]
    rfl
  · have hkeeps := keeps_mapIdx id fun i (hi : i < edges.length) => hiff i (hi.trans_le short)
    simp only [Option.map_id, id] at hkeeps
    exact hkeeps
  · exact keeps_mapIdx closer.entry fun i hi => hiff i (hi.trans_le record.reverseMapping_le)
  -- a kept node refers to nodes that are reached too, and those are kept
  · by_cases hi : Reached edges record i
    · have hkept := (hnodes.2 i).1 hi
      rw [hkept] at hnode
      obtain ⟨entry, hentry, hmap⟩ := Option.map_eq_some_iff.mp hnode
      obtain ⟨old, rfl, rfl⟩ := Option.map_eq_some_iff.mp hmap
      rw [closed] at ht
      obtain ⟨r, hr, path⟩ := hi
      exact hnodes.arrayGet ⟨r, hr, path.tail (lists i old hentry t ht)⟩
    · have hremoved := (hnodes.2 i).2 hi
      rw [hremoved] at hnode
      obtain ⟨entry, -, hnone⟩ := Option.map_eq_some_iff.mp hnode
      cases hnone

end

/-! ## The graph of the components -/

theorem length_fwdOf (edges : List (Option (List ℤ))) : (fwdOf edges).length = edges.length :=
  List.length_map ..

/-- The rows that are handed on are those of the table, in its range. -/
theorem mem_fwdOf {v w : ℕ} :
    w ∈ neighbors (fwdOf edges) v ↔ Refers edges v w ∧ w < edges.length := by
  have htarget : ∀ entry : Option (List ℤ),
      w ∈ ((entry.getD []).filter fun (t : ℤ) => 0 ≤ t ∧ t < edges.length).map Int.toNat ↔
        (w : ℤ) ∈ entry.getD [] ∧ w < edges.length := by
    intro entry
    rw [List.mem_map]
    constructor
    · rintro ⟨t, ht, rfl⟩
      rw [List.mem_filter, decide_eq_true_eq] at ht
      rw [Int.toNat_of_nonneg ht.2.1]
      exact ⟨ht.1, by omega⟩
    · rintro ⟨ht, hlt⟩
      exact ⟨w, List.mem_filter.mpr ⟨ht, by simpa using hlt⟩, Int.toNat_natCast w⟩
  rw [neighbors, fwdOf, List.getElem?_map, refers_natCast]
  cases edges[v]? with
  | none => simp
  | some entry =>
    rw [Option.map_some, Option.getD_some, htarget]
    cases entry with
    | none => simp
    | some row => simp

theorem neighbors_append (p : List (List ℕ)) (targets : List ℕ) (v w : ℕ) :
    w ∈ neighbors (p ++ [targets]) v ↔
      w ∈ neighbors p v ∨ (v = p.length ∧ w ∈ targets) := by
  rcases Nat.lt_trichotomy v p.length with h | rfl | h
  · rw [neighbors, neighbors, List.getElem?_append_left h]
    simp [h.ne]
  · simp [neighbors]
  · rw [neighbors, neighbors, List.getElem?_eq_none (by simp; omega),
      List.getElem?_eq_none (by omega)]
    simp [h.ne']

theorem length_foldl_set (src : ℕ) (targets : List ℕ) (a : List (List ℕ)) :
    (targets.foldl (fun a t => a.set t (src :: a[t]?.getD [])) a).length = a.length := by
  induction targets generalizing a with
  | nil => rfl
  | cons t targets ih => rw [List.foldl_cons, ih, List.length_set]

/-- Adding a source to the rows of its targets adds those edges and no others. -/
theorem mem_foldl_set (src : ℕ) (targets : List ℕ) (a : List (List ℕ))
    (hlt : ∀ t ∈ targets, t < a.length) (v w : ℕ) :
    v ∈ neighbors (targets.foldl (fun a t => a.set t (src :: a[t]?.getD [])) a) w ↔
      v ∈ neighbors a w ∨ (v = src ∧ w ∈ targets) := by
  induction targets generalizing a with
  | nil => simp
  | cons t targets ih =>
    have ht := hlt t (List.mem_cons_self ..)
    have hrest : ∀ u ∈ targets, u < (a.set t (src :: a[t]?.getD [])).length := by
      intro u hu
      rw [List.length_set]
      exact hlt u (List.mem_cons_of_mem t hu)
    rw [List.foldl_cons, ih _ hrest, neighbors, neighbors, List.getElem?_set]
    by_cases h : t = w
    · subst h
      simp [ht]
      tauto
    · simp [h, Ne.symm h]

/-- What the fold over the rows has made of the first of them. -/
structure Transposed (p : List (List ℕ)) (n : ℕ) (r : ℕ × List (List ℕ)) : Prop where
  count : r.1 = p.length
  length : r.2.length = n
  mem : ∀ v w, v ∈ neighbors r.2 w ↔ w ∈ neighbors p v

/-- The transposed rows have the edges of the rows, turned around. -/
theorem transOf_transposed {fwd : List (List ℕ)}
    (hlt : ∀ row ∈ fwd, ∀ w ∈ row, w < fwd.length) :
    (transOf fwd).length = fwd.length ∧
      ∀ v w, v ∈ neighbors (transOf fwd) w ↔ w ∈ neighbors fwd v := by
  have hfold : ∀ (rest p : List (List ℕ)) (r : ℕ × List (List ℕ)), p ++ rest = fwd →
      Transposed p fwd.length r → Transposed fwd fwd.length (rest.foldl
        (fun (r : ℕ × List (List ℕ)) targets =>
          (r.1 + 1, targets.foldl (fun a t => a.set t (r.1 :: a[t]?.getD [])) r.2)) r) := by
    intro rest
    induction rest with
    | nil =>
      intro p r hp h
      rw [List.append_nil] at hp
      exact hp ▸ h
    | cons targets rest ih =>
      intro p r hp h
      refine ih (p ++ [targets]) _ (by simp [hp]) ⟨?_, ?_, fun v w => ?_⟩
      · simp [h.count]
      · rw [length_foldl_set, h.length]
      · have hbound : ∀ t ∈ targets, t < r.2.length := by
          rw [h.length]
          exact hlt targets (by simp [← hp])
        rw [mem_foldl_set _ _ _ hbound, neighbors_append, h.mem, h.count]
  have hstart : Transposed [] fwd.length (0, List.replicate fwd.length []) := by
    refine ⟨rfl, List.length_replicate, fun v w => ?_⟩
    rw [neighbors, neighbors, List.getElem?_replicate]
    split <;> simp
  have hall := hfold fwd [] _ rfl hstart
  exact ⟨hall.length, hall.mem⟩

/-- What that over the self-loops has. -/
structure Looped (p : List (List ℕ)) (n : ℕ) (r : ℕ × BitSet) : Prop where
  count : r.1 = p.length
  size : r.2.size = n
  mem : ∀ v, BitSet.member v r.2 = true ↔ v ∈ neighbors p v

/-- The bitmap of loops marks the nodes that refer to themselves. -/
theorem selfLoopsOf_looped (fwd : List (List ℕ)) (v : ℕ) :
    BitSet.member v (selfLoopsOf fwd) = true ↔ v ∈ neighbors fwd v := by
  -- `p` are the vertices gone over, and the counter is their number
  have hfold : ∀ (rest p : List (List ℕ)) (r : ℕ × BitSet), p ++ rest = fwd →
      Looped p fwd.length r → Looped fwd fwd.length (rest.foldl
        (fun (r : ℕ × BitSet) targets =>
          (r.1 + 1, if targets.contains r.1 then BitSet.insert r.1 r.2 else r.2)) r) := by
    intro rest
    induction rest with
    | nil =>
      intro p r hp h
      rw [List.append_nil] at hp
      exact hp ▸ h
    | cons targets rest ih =>
      intro p r hp h
      have hlen : p.length < fwd.length := by simp [← hp]
      refine ih (p ++ [targets]) _ (by simp [hp]) ⟨by simp [h.count], ?_, fun v => ?_⟩
      · dsimp only
        split
        · rw [BitSet.insert_size, h.size]
        · exact h.size
      · rw [neighbors_append]
        dsimp only
        split
        · next hself =>
          rw [List.contains_iff_mem, h.count] at hself
          rw [h.count, BitSet.member_insert (by rw [h.size]; exact hlen), h.mem]
          constructor
          · rintro (rfl | hv)
            · exact Or.inr ⟨rfl, hself⟩
            · exact Or.inl hv
          · rintro (hv | ⟨rfl, -⟩)
            · exact Or.inr hv
            · exact Or.inl rfl
        · next hself =>
          rw [List.contains_iff_mem, h.count] at hself
          rw [h.mem]
          refine ⟨Or.inl, fun hv => hv.resolve_right ?_⟩
          rintro ⟨rfl, hmem⟩
          exact hself hmem
  have hstart : Looped [] fwd.length (0, BitSet.emptyWithSize fwd.length) := by
    refine ⟨rfl, rfl, fun v => ?_⟩
    simp [BitSet.member_emptyWithSize, neighbors]
  exact (hfold fwd [] _ rfl hstart).mem v

/-- The graph given to the search for components satisfies its contract. -/
theorem intGraphOf_contract (edges : List (Option (List ℤ))) : (intGraphOf edges).Contract := by
  have hlt : ∀ row ∈ fwdOf edges, ∀ w ∈ row, w < (fwdOf edges).length := by
    intro row hrow w hw
    obtain ⟨v, hv⟩ := List.mem_iff_getElem?.mp hrow
    have hmem : w ∈ neighbors (fwdOf edges) v := by
      rw [neighbors, hv]
      exact hw
    rw [length_fwdOf]
    exact (mem_fwdOf.mp hmem).2
  obtain ⟨hlength, hmem⟩ := transOf_transposed hlt
  rw [length_fwdOf] at hlength
  exact ⟨⟨length_fwdOf edges, hlength⟩, fun v w hw => (mem_fwdOf.mp hw).2, hmem,
    selfLoopsOf_looped (fwdOf edges)⟩

/-! ## The numbers of the components -/

theorem length_foldl_number (c : ℤ) (vs : List ℕ) (a : List ℤ) :
    (vs.foldl (fun a u => a.set u c) a).length = a.length := by
  induction vs generalizing a with
  | nil => rfl
  | cons u vs ih => rw [List.foldl_cons, ih, List.length_set]

/-- Numbering a component writes its number at its nodes and nowhere else. -/
theorem getElem?_foldl_number (c : ℤ) (vs : List ℕ) (a : List ℤ) (hlt : ∀ u ∈ vs, u < a.length)
    (v : ℕ) : (vs.foldl (fun a u => a.set u c) a)[v]? = if v ∈ vs then some c else a[v]? := by
  induction vs generalizing a with
  | nil => rfl
  | cons u vs ih =>
    have hu := hlt u (List.mem_cons_self ..)
    have hrest : ∀ w ∈ vs, w < (a.set u c).length := by
      intro w hw
      rw [List.length_set]
      exact hlt w (List.mem_cons_of_mem u hw)
    rw [List.foldl_cons, ih _ hrest, List.getElem?_set]
    by_cases hv : v ∈ vs
    · simp [hv]
    · by_cases h : u = v
      · subst h
        simp [hv, hu]
      · simp [hv, h, Ne.symm h]

/-- The step that numbers a component. -/
def number (r : ℤ × List ℤ) (scc : SCC ℕ) : ℤ × List ℤ :=
  (r.1 + 1, scc.vertices.foldl (fun a u => a.set u r.1) r.2)

theorem componentOf_eq (m : ℕ) (sccs : List (SCC ℕ)) :
    componentOf m sccs = (sccs.foldl number (0, List.replicate m (-1))).2 := by
  rw [componentOf]
  congr 2
  funext r scc
  cases scc with
  | acyclicSCC v => rfl
  | cyclicSCC v vs => rfl

/-- Components without a common vertex are numbered from here on, and nothing else is. -/
theorem foldl_number {sccs : List (SCC ℕ)} {r : ℤ × List ℤ}
    (nodup : (sccs.map SCC.vertices).flatten.Nodup)
    (hlt : ∀ u ∈ (sccs.map SCC.vertices).flatten, u < r.2.length) :
    (∀ (i : ℕ) (scc : SCC ℕ), sccs[i]? = some scc → ∀ v ∈ scc.vertices,
      (sccs.foldl number r).2[v]? = some (r.1 + i)) ∧
    ∀ v, v ∉ (sccs.map SCC.vertices).flatten → (sccs.foldl number r).2[v]? = r.2[v]? := by
  induction sccs generalizing r with
  | nil => exact ⟨(by simp), fun v _ => rfl⟩
  | cons c sccs ih =>
    rw [List.map_cons, List.flatten_cons] at nodup hlt
    obtain ⟨-, hnodup, hdisjoint⟩ := List.nodup_append.mp nodup
    have hvertices : ∀ u ∈ c.vertices, u < r.2.length := fun u hu =>
      hlt u (List.mem_append_left _ hu)
    have hrest : ∀ u ∈ (sccs.map SCC.vertices).flatten, u < (number r c).2.length := by
      intro u hu
      rw [number, length_foldl_number]
      exact hlt u (List.mem_append_right _ hu)
    obtain ⟨hin, hout⟩ := ih hnodup hrest
    refine ⟨fun i scc hi v hv => ?_, fun v hv => ?_⟩
    · cases i with
      | zero =>
        obtain rfl := Option.some.inj hi
        have hnot : v ∉ (sccs.map SCC.vertices).flatten := fun hmem => hdisjoint v hv v hmem rfl
        rw [List.foldl_cons, hout v hnot, number, getElem?_foldl_number _ _ _ hvertices, if_pos hv]
        simp
      | succ i =>
        rw [List.foldl_cons, hin i scc hi v hv, number]
        push_cast
        congr 1
        ring
    · rw [List.map_cons, List.flatten_cons, List.mem_append, not_or] at hv
      rw [List.foldl_cons, hout v hv.2, number, getElem?_foldl_number _ _ _ hvertices, if_neg hv.1]

/-- Every vertex has the number of its component. -/
theorem componentOf_spec {m : ℕ} {sccs : List (SCC ℕ)}
    (nodup : (sccs.map SCC.vertices).flatten.Nodup)
    (hlt : ∀ u ∈ (sccs.map SCC.vertices).flatten, u < m) {i : ℕ} {scc : SCC ℕ}
    (hi : sccs[i]? = some scc) {v : ℕ} (hv : v ∈ scc.vertices) :
    (componentOf m sccs)[v]? = some (i : ℤ) := by
  have hbound : ∀ u ∈ (sccs.map SCC.vertices).flatten, u < (List.replicate m (-1 : ℤ)).length := by
    intro u hu
    rw [List.length_replicate]
    exact hlt u hu
  have hnumber := (foldl_number (r := (0, List.replicate m (-1))) nodup hbound).1 i scc hi v hv
  rw [zero_add] at hnumber
  rw [componentOf_eq, hnumber]

/-! ## Cycles -/

/-- Paths between two ids in the range are those of the graph that is handed on. -/
theorem reaches_natCast {a : ℕ} {b : ℤ} (hb : 0 ≤ b ∧ b < edges.length) :
    ReflTransGen (Refers edges) a b ↔
      ReflTransGen (Edge (neighbors (fwdOf edges))) a b.toNat := by
  constructor
  · intro path
    induction path with
    | refl => rw [Int.toNat_natCast]
    | @tail c b path hcb ih =>
      have hc := hcb.range
      refine (ih hc).tail (mem_fwdOf.mpr ?_)
      rw [Int.toNat_of_nonneg hc.1, Int.toNat_of_nonneg hb.1]
      exact ⟨hcb, by omega⟩
  · intro path
    obtain ⟨b, rfl⟩ := Int.eq_ofNat_of_zero_le hb.1
    rw [Int.toNat_natCast] at path
    exact path.lift (fun v : ℕ => (v : ℤ)) fun v w hvw => (mem_fwdOf.mp hvw).1

/-- The id's own row, or one that leads to it, has the id in the range. -/
theorem range_of_reaches {a b : ℤ} (hb : 0 ≤ b ∧ b < edges.length)
    (path : ReflTransGen (Refers edges) a b) : 0 ≤ a ∧ a < edges.length := by
  rcases path.cases_head with rfl | ⟨c, hac, -⟩
  · exact hb
  · exact hac.range

/-- The number of an id, as the restriction asks for it. -/
def compOf (m : ℕ) (sccs : List (SCC ℕ)) (v : ℤ) : ℤ := (arrayGet (componentOf m sccs) v).getD (-1)

/-- Two ids with one number are those that reach each other. -/
theorem compOf_eq_iff {sccs : List (SCC ℕ)}
    (all : ∀ u, u ∈ (sccs.map SCC.vertices).flatten ↔ u < edges.length)
    (components : Components (Edge (neighbors (fwdOf edges))) (sccs.map SCC.vertices).reverse)
    {a b : ℕ} (ha : a < edges.length) (hb : b < edges.length) :
    compOf edges.length sccs b = compOf edges.length sccs a ↔ Mutual (Refers edges) a b := by
  have nodup : (sccs.map SCC.vertices).flatten.Nodup := by
    have hperm : (sccs.map SCC.vertices).reverse.flatten.Perm (sccs.map SCC.vertices).flatten :=
      (List.reverse_perm _).flatten
    exact hperm.nodup_iff.mp components.nodup
  have hlt : ∀ u ∈ (sccs.map SCC.vertices).flatten, u < edges.length := fun u hu => (all u).mp hu
  have hnumber : ∀ {v : ℕ}, v < edges.length → ∃ (i : ℕ) (scc : SCC ℕ), sccs[i]? = some scc ∧
      v ∈ scc.vertices ∧ compOf edges.length sccs v = i := by
    intro v hv
    obtain ⟨c, hc, hmem⟩ := List.mem_flatten.mp ((all v).mpr hv)
    obtain ⟨scc, hscc, rfl⟩ := List.mem_map.mp hc
    obtain ⟨i, hi⟩ := List.mem_iff_getElem?.mp hscc
    refine ⟨i, scc, hi, hmem, ?_⟩
    rw [compOf, arrayGet_of_nonneg _ (by omega), Int.toNat_natCast,
      componentOf_spec nodup hlt hi hmem]
    rfl
  obtain ⟨i, c, hi, hmem, hci⟩ := hnumber ha
  obtain ⟨j, d, hj, hmem', hdj⟩ := hnumber hb
  have hclass : b ∈ c.vertices ↔ Mutual (Edge (neighbors (fwdOf edges))) a b := by
    refine components.classes c.vertices ?_ a hmem b
    exact List.mem_reverse.mpr (List.mem_map_of_mem (List.mem_of_getElem? hi))
  have hmutual : Mutual (Refers edges) a b ↔ Mutual (Edge (neighbors (fwdOf edges))) a b := by
    rw [Mutual, Mutual, reaches_natCast (by omega), reaches_natCast (by omega)]
    rfl
  rw [hci, hdj, hmutual, ← hclass, Int.natCast_inj]
  constructor
  · rintro rfl
    obtain rfl := Option.some.inj (hi.symm.trans hj)
    exact hmem'
  · intro hbc
    -- one vertex in two components would stand twice
    have hfirst := componentOf_spec nodup hlt hi hbc
    have hsecond := componentOf_spec nodup hlt hj hmem'
    exact Int.natCast_inj.mp (Option.some.inj (hsecond.symm.trans hfirst))

open Classical in
/-- A row without the targets that do not lead back to it. -/
noncomputable def cyclicRow (edges : List (Option (List ℤ))) (src : ℤ) (row : List ℤ) : List ℤ :=
  row.filter fun t => Mutual (Refers edges) src t

open Classical in
/-- A row restricted to its component keeps the references that come back. -/
theorem mem_cyclicRow {src t : ℤ} {row : List ℤ} :
    t ∈ cyclicRow edges src row ↔ t ∈ row ∧ Mutual (Refers edges) src t := by
  rw [cyclicRow, List.mem_filter, decide_eq_true_eq]

/-- The fuel that the components of these rows need. -/
def sccFuel (edges : List (Option (List ℤ))) : ℕ := (intGraphOf edges).fuel

/-- The rows are restricted, each in its order, to the edges whose ends reach each other. -/
theorem restrictToSccEdges_rows (hfuel : sccFuel edges ≤ fuel) :
    ∃ restricted, restrictToSccEdges fuel edges = some restricted ∧
      restricted.length = edges.length ∧
      ∀ i : ℕ, restricted[i]? = edges[i]?.map (Option.map (cyclicRow edges i)) := by
  obtain ⟨sccs, heq, all, components, -⟩ :=
    stronglyConnCompInt_spec (intGraphOf_contract edges) hfuel
  refine ⟨_, by rw [restrictToSccEdges, heq]; rfl, List.length_mapIdx, fun i => ?_⟩
  rw [List.getElem?_mapIdx]
  rcases Nat.lt_or_ge i edges.length with hi | hi
  · rw [List.getElem?_eq_getElem hi, Option.map_some, Option.map_some]
    congr 1
    cases edges[i] with
    | none => rfl
    | some row =>
      refine congrArg some (List.filter_congr fun t _ => ?_)
      rw [decide_eq_decide]
      constructor
      · rintro ⟨hrange, hsame⟩
        obtain ⟨u, rfl⟩ := Int.eq_ofNat_of_zero_le hrange.1
        exact (compOf_eq_iff all components hi (by omega)).mp hsame
      · intro h
        have hrange := range_of_reaches ⟨by omega, by omega⟩ h.2
        refine ⟨hrange, ?_⟩
        obtain ⟨u, rfl⟩ := Int.eq_ofNat_of_zero_le hrange.1
        exact (compOf_eq_iff all components hi (by omega)).mpr h
  · rw [List.getElem?_eq_none hi]
    rfl

/-- A closed walk through specs of a set. -/
def IsCycle (edges : List (Option (List ℤ))) (S : Set ℤ) (cycle : List ℤ) : Prop :=
  (∀ v ∈ cycle, v ∈ S) ∧ ∃ first rest, cycle = first :: rest ∧
    List.IsChain (Refers edges) (first :: rest ++ [first])

/-- The edges that are kept are those whose two ends reach each other. -/
structure Restricted (edges restricted : List (Option (List ℤ))) : Prop where
  rows : restricted.length = edges.length ∧
    ∀ i : ℕ, restricted[i]? = edges[i]?.map (Option.map (cyclicRow edges i))
  kept : ∀ a b, Refers restricted a b ↔ Refers edges a b ∧ Mutual (Refers edges) a b
  cycles : ∀ S cycle, IsCycle restricted S cycle ↔ IsCycle edges S cycle

/-- So do all the restricted rows together. -/
theorem refers_restricted {restricted : List (Option (List ℤ))}
    (h : ∀ i : ℕ, restricted[i]? = edges[i]?.map (Option.map (cyclicRow edges i))) (a b : ℤ) :
    Refers restricted a b ↔ Refers edges a b ∧ Mutual (Refers edges) a b := by
  rcases lt_or_ge a 0 with hneg | hnonneg
  · constructor
    · intro hab
      exact absurd hab.range.1 hneg.not_ge
    · intro hab
      exact absurd hab.1.range.1 hneg.not_ge
  · obtain ⟨i, rfl⟩ := Int.eq_ofNat_of_zero_le hnonneg
    rw [refers_natCast, refers_natCast, h i]
    constructor
    · rintro ⟨row, hrow, hmem⟩
      obtain ⟨entry, hentry, hmap⟩ := Option.map_eq_some_iff.mp hrow
      obtain ⟨old, rfl, rfl⟩ := Option.map_eq_some_iff.mp hmap
      rw [mem_cyclicRow] at hmem
      exact ⟨⟨old, hentry, hmem.1⟩, hmem.2⟩
    · rintro ⟨⟨row, hrow, hmem⟩, hmutual⟩
      exact ⟨cyclicRow edges i row, by rw [hrow]; rfl, mem_cyclicRow.mpr ⟨hmem, hmutual⟩⟩

/-- In a chain, each vertex leads to those after it. -/
theorem reaches_of_isChain {V : Type} {R : V → V → Prop} {a : V} {l : List V}
    (chain : List.IsChain R (a :: l)) : ∀ b ∈ a :: l, ReflTransGen R a b := by
  induction l generalizing a with
  | nil =>
    intro b hb
    rw [List.mem_singleton.mp hb]
  | cons c l ih =>
    obtain ⟨hac, hrest⟩ := List.isChain_cons_cons.mp chain
    intro b hb
    rcases List.mem_cons.mp hb with rfl | hb
    · exact ReflTransGen.refl
    · exact (ih hrest b hb).head hac

/-- A chain that ends where it may lead back from keeps its edges. -/
theorem isChain_mutual {V : Type} {R : V → V → Prop} {a last : V} {l : List V}
    (chain : List.IsChain R (a :: l ++ [last])) (back : ReflTransGen R last a) :
    List.IsChain (fun u v => R u v ∧ Mutual R u v) (a :: l ++ [last]) := by
  induction l generalizing a with
  | nil =>
    have hab : R a last := (List.isChain_cons_cons.mp chain).1
    have hmutual : Mutual R a last := ⟨ReflTransGen.single hab, back⟩
    exact List.isChain_cons_cons.mpr ⟨⟨hab, hmutual⟩, List.isChain_singleton _⟩
  | cons c l ih =>
    obtain ⟨hac, hrest⟩ := List.isChain_cons_cons.mp chain
    have hlast : ReflTransGen R c last := reaches_of_isChain hrest last (by simp)
    have hmutual : Mutual R a c := ⟨ReflTransGen.single hac, hlast.trans back⟩
    exact List.isChain_cons_cons.mpr ⟨⟨hac, hmutual⟩, ih hrest (back.tail hac)⟩

/-- With the stated fuel the restriction succeeds and every row is restricted. -/
theorem restrictToSccEdges_restricted (hfuel : sccFuel edges ≤ fuel) :
    ∃ restricted, restrictToSccEdges fuel edges = some restricted ∧
      Restricted edges restricted := by
  obtain ⟨restricted, heq, hlength, hrows⟩ := restrictToSccEdges_rows hfuel
  have hrefers := refers_restricted hrows
  refine ⟨restricted, heq, ⟨hlength, hrows⟩, hrefers, fun S cycle => ?_⟩
  refine and_congr Iff.rfl ?_
  constructor
  · rintro ⟨first, rest, hcycle, chain⟩
    exact ⟨first, rest, hcycle, chain.imp fun a b hab => ((hrefers a b).mp hab).1⟩
  · rintro ⟨first, rest, hcycle, chain⟩
    refine ⟨first, rest, hcycle, ?_⟩
    exact (isChain_mutual chain ReflTransGen.refl).imp fun a b hab => (hrefers a b).mpr hab

/-! ## Both prunes -/

section

variable {Mapping Counts Global Ty Node Shapes Lss : Type} [EmptyCollection Mapping]
  [EmptyCollection Counts]

/-- Over rows that list every id each body refers to, a prune keeps exactly what the roots
    reach, where it was, and nothing kept refers to what is removed; and of every table of
    rows, the restriction keeps the edges whose two ends reach each other, so that it has the
    same cycles on every set of ids. -/
theorem prune_spec {record : MonoGraph Mapping Counts Global Ty Node Shapes Lss}
    {closer : Closer Ty Node Shapes} {refs : Node → List ℤ}
    (closed : ∀ node, refs (closer.node node) = refs node)
    (lists : ∀ (i : ℕ) node, record.nodes[i]? = some (some node) →
      ∀ t ∈ refs node, Refers edges i t)
    (short : edges.length ≤ record.registry.nextId)
    (hfuel : searchFuel edges record.roots record.registry.nextId ≤ fuel) :
    (∃ pruned, pruneUnreachableWith fuel edges closer record = some pruned ∧
      Pruned refs edges closer record pruned) ∧
    ∀ table : List (Option (List ℤ)), ∀ fuel ≥ sccFuel table,
      ∃ restricted, restrictToSccEdges fuel table = some restricted ∧ Restricted table restricted :=
  ⟨pruneUnreachableWith_pruned closed lists short hfuel, fun _ _ hfuel =>
    restrictToSccEdges_restricted hfuel⟩

/-- Three specs, the second referred to by the first and the third by itself alone. -/
def threeSpecs : MonoGraph (List ℕ) (List ℕ) Unit Unit (List ℤ) Unit Unit where
  nodes := [some [1], some [], some [2]]
  main := 0
  registry := ⟨3, [], [some ((), ()), none, some ((), ())], []⟩
  ctorShapes := ()
  nextLambdaIndex := 0
  callEdges := []
  specHasEffects := BitSet.emptyWithSize 0
  specValueUsed := BitSet.emptyWithSize 0
  ports := []
  flagsDecoder := none
  flagsSchema := ""
  lss := ()
  nodes_le := le_rfl
  reverseMapping_le := le_rfl

/-- The third of them is removed. -/
theorem prune_spec_threeSpecs :
    ((∃ pruned, pruneUnreachableWith 3 threeSpecs.nodes .identity threeSpecs = some pruned ∧
      Pruned id threeSpecs.nodes .identity threeSpecs pruned) ∧
    ∀ table : List (Option (List ℤ)), ∀ fuel ≥ sccFuel table,
      ∃ restricted, restrictToSccEdges fuel table = some restricted ∧ Restricted table restricted) ∧
    (pruneUnreachableWith 3 threeSpecs.nodes .identity threeSpecs).map MonoGraph.nodes
      = some [some [1], some [], none] := by
  have lists : ∀ (i : ℕ) node, threeSpecs.nodes[i]? = some (some node) → ∀ t ∈ id node,
      Refers threeSpecs.nodes i t := by
    intro i node hnode t ht
    exact refers_natCast.mpr ⟨node, hnode, ht⟩
  exact ⟨prune_spec (fun _ => rfl) lists le_rfl (by decide), by decide⟩

/-- After inlining the rows are those of the bodies themselves, and what is left of them are
    the edges of cycles. -/
theorem pruneAfterInline_spec (refs : Node → List ℤ)
    (graph : MonoGraph Mapping Counts Global Ty Node Shapes Lss) :
    ∃ bound, ∀ fuel ≥ bound, ∃ pruned result, pruneAfterInline refs fuel graph = some result ∧
      Pruned refs (collectSpecEdges refs graph.nodes) .identity graph pruned ∧
      result = { pruned with callEdges := result.callEdges } ∧
      Restricted pruned.callEdges result.callEdges := by
  have lists : ∀ (i : ℕ) node, graph.nodes[i]? = some (some node) → ∀ t ∈ refs node,
      Refers (collectSpecEdges refs graph.nodes) i t := by
    intro i node hnode t ht
    refine refers_natCast.mpr ⟨refs node, ?_, ht⟩
    rw [collectSpecEdges, List.getElem?_map, hnode]
    rfl
  have short : (collectSpecEdges refs graph.nodes).length ≤ graph.registry.nextId := by
    rw [collectSpecEdges, List.length_map]
    exact graph.nodes_le
  have closed : ∀ node, refs ((Closer.identity : Closer Ty Node Shapes).node node) = refs node :=
    fun _ => rfl
  -- the rows that are left do not depend on the fuel
  obtain ⟨pruned₀, -, h₀⟩ := pruneUnreachableWith_pruned closed lists short le_rfl
  refine ⟨max (searchFuel (collectSpecEdges refs graph.nodes) graph.roots graph.registry.nextId)
    (sccFuel pruned₀.callEdges), fun fuel hfuel => ?_⟩
  obtain ⟨pruned, heq, h⟩ :=
    pruneUnreachableWith_pruned closed lists short (le_of_max_le_left hfuel)
  have hsame : pruned.callEdges = pruned₀.callEdges := h.callEdges.unique h₀.callEdges
  have hscc : sccFuel pruned.callEdges ≤ fuel := by
    rw [hsame]
    exact le_of_max_le_right hfuel
  obtain ⟨restricted, hrestricted, hspec⟩ := restrictToSccEdges_restricted hscc
  refine ⟨pruned, { pruned with callEdges := restricted }, ?_, h, rfl, hspec⟩
  rw [pruneAfterInline, heq]
  simp only [Option.bind_eq_bind, Option.bind_some]
  rw [hrestricted]
  rfl

end

end Prune

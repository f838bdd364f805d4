import Mathlib

/-! # Depth-first search and strongly connected components

    A graph is a relation; nothing here knows how one is stored.  The search keeps its own
    stack of vertices to enter and vertices to leave.

    * `DepthFirst.Step` — one step of the search, and `Inv`, what it keeps;
    * `DepthFirst.Ordered` — what the order of leaving says about back edges;
    * `Ordered.back` — a vertex that reaches `v` without meeting one left after `v` is reached
      by `v`. -/

namespace DepthFirst

open Relation

variable {V : Type} {R : V → V → Prop}

/-! ## The order of leaving -/

/-- For a list of vertices, last left first: a vertex with an edge from one left before it
    reaches whatever was left from then on. -/
def Ordered (R : V → V → Prop) : List V → Prop
  | [] => True
  | y :: l =>
    (∀ M x B, l = M ++ x :: B → R x y → ∀ z ∈ M ++ [x], ReflTransGen R y z) ∧ Ordered R l

theorem Ordered.of_append {A l : List V} (h : Ordered R (A ++ l)) : Ordered R l := by
  induction A with
  | nil => exact h
  | cons a A ih => exact ih h.2

/-- Along a path to `v` that stays among the vertices left no later than `v`, everything from
    its earliest vertex on is reached by `v`. -/
theorem Ordered.reached {v u : V} {B : List V} (h : Ordered R (v :: B))
    (path : ReflTransGen (fun a b => R a b ∧ a ∈ v :: B) u v) :
    ∃ M B', v :: B = M ++ B' ∧ u ∈ M ∧ ∀ z ∈ M, ReflTransGen R v z := by
  induction path using ReflTransGen.head_induction_on with
  | refl =>
    refine ⟨[v], B, rfl, List.mem_singleton_self v, fun z hz => ?_⟩
    rw [List.mem_singleton.mp hz]
  | @head x y hstep _ ih =>
    obtain ⟨hxy, hx⟩ := hstep
    obtain ⟨M, B', heq, hy, hreach⟩ := ih
    rw [heq] at hx
    rcases List.mem_append.mp hx with hx | hx
    · exact ⟨M, B', heq, hx, hreach⟩
    · -- `x` was left before all of `M`: the edge to `y` takes everything in between along
      obtain ⟨B₁, B₂, rfl⟩ := List.append_of_mem hx
      obtain ⟨M₁, M₂, rfl⟩ := List.append_of_mem hy
      refine ⟨(M₁ ++ y :: M₂) ++ (B₁ ++ [x]), B₂, ?_, ?_, fun z hz => ?_⟩
      · rw [heq]
        simp
      · simp
      · rcases List.mem_append.mp hz with hz | hz
        · exact hreach z hz
        · have hy' : Ordered R (y :: (M₂ ++ B₁) ++ x :: B₂) := by
            refine Ordered.of_append (A := M₁) ?_
            rw [heq] at h
            simpa using h
          refine (hreach y (by simp)).trans (hy'.1 (M₂ ++ B₁) x B₂ rfl hxy z ?_)
          rw [List.append_assoc]
          exact List.mem_append_right _ hz

/-- A vertex that reaches `v` without meeting a vertex left after `v` is reached by `v`. -/
theorem Ordered.back {A B : List V} {v u : V} (h : Ordered R (A ++ v :: B))
    (path : ReflTransGen (fun a b => R a b ∧ a ∈ v :: B) u v) : ReflTransGen R v u := by
  obtain ⟨M, -, -, hu, hreach⟩ := h.of_append.reached path
  exact hreach u hu

/-! ## The search -/

/-- A step that is still to be taken. -/
inductive Work (V : Type) where
  | enter (v : V)
  | exit (v : V)
  deriving DecidableEq

/-- The vertex of a step. -/
def Work.vertex : Work V → V
  | .enter v => v
  | .exit v => v

/-- The steps to take, the vertices entered, and the vertices left, last left first. -/
structure State (V : Type) where
  stack : List (Work V)
  visited : Set V
  acc : List V

/-- One step of the search through the neighbours `adj`. -/
inductive Step (adj : V → List V) : State V → State V → Prop
  | exit (v : V) (rest visited acc) :
    Step adj ⟨.exit v :: rest, visited, acc⟩ ⟨rest, visited, v :: acc⟩
  | seen (v : V) (rest visited acc) (h : v ∈ visited) :
    Step adj ⟨.enter v :: rest, visited, acc⟩ ⟨rest, visited, acc⟩
  | visit (v : V) (rest visited acc) (h : v ∉ visited) :
    Step adj ⟨.enter v :: rest, visited, acc⟩
      ⟨((adj v).map Work.enter).reverse ++ .exit v :: rest, insert v visited, acc⟩

/-- The edges of a graph given by its neighbours. -/
def Edge (adj : V → List V) (x y : V) : Prop := y ∈ adj x

/-- Every neighbour of a vertex that is to be left has been entered, or will be before. -/
def Covered (adj : V → List V) (visited : Set V) : Set V → List (Work V) → Prop
  | _, [] => True
  | above, .enter v :: rest => Covered adj visited (insert v above) rest
  | above, .exit v :: rest =>
    (∀ y, y ∈ adj v → y ∈ visited ∨ y ∈ above) ∧ Covered adj visited above rest

theorem Covered.mono {adj : V → List V} {visited visited' above above' : Set V}
    {stack : List (Work V)} (h : Covered adj visited above stack)
    (le : ∀ y, y ∈ visited ∨ y ∈ above → y ∈ visited' ∨ y ∈ above') :
    Covered adj visited' above' stack := by
  induction stack generalizing above above' with
  | nil => trivial
  | cons w rest ih =>
    cases w with
    | enter v =>
      refine ih h fun y hy => ?_
      rcases hy with hy | rfl | hy
      · exact (le y (Or.inl hy)).imp_right (Set.mem_insert_of_mem v)
      · exact Or.inr (Set.mem_insert ..)
      · exact (le y (Or.inr hy)).imp_right (Set.mem_insert_of_mem v)
    | exit v => exact ⟨fun y hy => le y (h.1 y hy), ih h.2 le⟩

/-- Vertices to enter on top of the stack cover what is below them. -/
theorem Covered.push {adj : V → List V} {visited above : Set V} {stack : List (Work V)}
    (ns : List V) (h : Covered adj visited (above ∪ {y | y ∈ ns}) stack) :
    Covered adj visited above (ns.map Work.enter ++ stack) := by
  induction ns generalizing above with
  | nil =>
    refine h.mono fun y hy => hy.imp_right fun hy => ?_
    simpa using hy
  | cons n ns ih =>
    refine ih (h.mono fun y hy => hy.imp_right fun hy => ?_)
    rcases hy with hy | hy
    · exact Or.inl (Set.mem_insert_of_mem n hy)
    · rcases List.mem_cons.mp hy with rfl | hy
      · exact Or.inl (Set.mem_insert ..)
      · exact Or.inr hy

/-- What holds between two steps of the search. -/
structure Inv (adj : V → List V) (s : State V) : Prop where
  visited : ∀ v, v ∈ s.visited ↔ v ∈ s.acc ∨ .exit v ∈ s.stack
  nodup : s.acc.Nodup
  open_ : ∀ v, .exit v ∈ s.stack → v ∉ s.acc
  once : s.stack.Pairwise fun w w' => ∀ v, w = .exit v → w' ≠ .exit v
  chain : s.stack.Pairwise fun w w' =>
    ∀ g, w' = .exit g → ReflTransGen (Edge adj) g w.vertex
  closed : ∀ x ∈ s.acc, ∀ y ∈ adj x, y ∈ s.visited
  covered : Covered adj s.visited ∅ s.stack
  ordered : Ordered (Edge adj) s.acc
  since : ∀ g, .exit g ∈ s.stack → ∃ A B, s.acc = A ++ B ∧
    (∀ z ∈ A, ReflTransGen (Edge adj) g z) ∧ ∀ x ∈ B, g ∉ adj x

variable {adj : V → List V}

/-- A vertex is left. -/
theorem inv_exit {v : V} {rest : List (Work V)} {visited : Set V} {acc : List V}
    (h : Inv adj ⟨.exit v :: rest, visited, acc⟩) : Inv adj ⟨rest, visited, v :: acc⟩ := by
  have hchain := List.pairwise_cons.mp h.chain
  have honce := List.pairwise_cons.mp h.once
  -- `A` was left since `v` was entered, `B` before
  obtain ⟨A, B, hacc, hA, hB⟩ := h.since v (List.mem_cons_self ..)
  refine ⟨fun u => ?_, ?_, fun u hu => ?_, honce.2, hchain.2, ?_, ?_, ⟨?_, h.ordered⟩, ?_⟩
  · rw [h.visited u]
    simp only [List.mem_cons, Work.exit.injEq]
    tauto
  · exact List.nodup_cons.mpr ⟨h.open_ v (List.mem_cons_self ..), h.nodup⟩
  · intro hmem
    rcases List.mem_cons.mp hmem with rfl | hmem
    · exact honce.1 _ hu u rfl rfl
    · exact h.open_ u (List.mem_cons_of_mem _ hu) hmem
  · intro x hx y hy
    rcases List.mem_cons.mp hx with rfl | hx
    · exact (h.covered.1 y hy).elim id fun hn => absurd hn (Set.notMem_empty y)
    · exact h.closed x hx y hy
  · exact h.covered.2
  · -- an edge back to `v` comes from a vertex left since `v` was entered
    intro M x B' hsplit hxv z hz
    have hx : x ∉ B := fun hxB => hB x hxB hxv
    refine hA z ?_
    have hprefix : M ++ x :: B' = A ++ B := hsplit.symm.trans hacc
    rcases List.append_eq_append_iff.mp hprefix with ⟨C, rfl, hC⟩ | ⟨C, rfl, hC⟩
    · cases C with
      | nil =>
        rw [List.nil_append] at hC
        exact absurd (hC ▸ List.mem_cons_self ..) hx
      | cons c C =>
        obtain ⟨rfl, -⟩ := List.cons.inj hC
        rcases List.mem_append.mp hz with hz | hz
        · exact List.mem_append_left _ hz
        · rw [List.mem_singleton.mp hz]
          exact List.mem_append_right _ (List.mem_cons_self ..)
    · exact absurd (hC ▸ List.mem_append_right C (List.mem_cons_self ..)) hx
  · intro g hg
    obtain ⟨A, B, hacc, hA, hB⟩ := h.since g (List.mem_cons_of_mem _ hg)
    refine ⟨v :: A, B, congrArg (List.cons v) hacc, fun z hz => ?_, hB⟩
    rcases List.mem_cons.mp hz with rfl | hz
    · exact hchain.1 _ hg g rfl
    · exact hA z hz

/-- A vertex is met again. -/
theorem inv_seen {v : V} {rest : List (Work V)} {visited : Set V} {acc : List V}
    (h : Inv adj ⟨.enter v :: rest, visited, acc⟩) (hv : v ∈ visited) :
    Inv adj ⟨rest, visited, acc⟩ := by
  refine ⟨fun u => ?_, h.nodup, fun u hu => h.open_ u (List.mem_cons_of_mem _ hu),
    (List.pairwise_cons.mp h.once).2, (List.pairwise_cons.mp h.chain).2, h.closed, ?_, h.ordered,
    fun g hg => h.since g (List.mem_cons_of_mem _ hg)⟩
  · rw [h.visited u]
    simp
  · refine Covered.mono h.covered fun y hy => ?_
    rcases hy with hy | rfl | hy
    · exact Or.inl hy
    · exact Or.inl hv
    · exact Or.inr hy

/-- A vertex is entered. -/
theorem inv_visit {v : V} {rest : List (Work V)} {visited : Set V} {acc : List V}
    (h : Inv adj ⟨.enter v :: rest, visited, acc⟩) (hv : v ∉ visited) :
    Inv adj ⟨((adj v).map Work.enter).reverse ++ .exit v :: rest, insert v visited, acc⟩ := by
  have hchain := List.pairwise_cons.mp h.chain
  have honce := List.pairwise_cons.mp h.once
  have hpushed : ∀ w ∈ ((adj v).map Work.enter).reverse, ∃ y ∈ adj v, w = .enter y := by
    intro w hw
    obtain ⟨y, hy, rfl⟩ := List.mem_map.mp (List.mem_reverse.mp hw)
    exact ⟨y, hy, rfl⟩
  have hexit : ∀ u, .exit u ∈ ((adj v).map Work.enter).reverse ++ .exit v :: rest ↔
      u = v ∨ .exit u ∈ rest := by
    intro u
    simp
  -- `v` is new, so no exit of it stands on the stack
  have hnot : .exit v ∉ rest := fun hmem =>
    hv ((h.visited v).mpr (Or.inr (List.mem_cons_of_mem _ hmem)))
  have hacc : v ∉ acc := fun hmem => hv ((h.visited v).mpr (Or.inl hmem))
  refine ⟨fun u => ?_, h.nodup, fun u hu => ?_, ?_, ?_, ?_, ?_, h.ordered, fun g hg => ?_⟩
  · rw [Set.mem_insert_iff, h.visited u, hexit u]
    simp only [List.mem_cons, reduceCtorEq, false_or]
    tauto
  · rcases (hexit u).mp hu with rfl | hu
    · exact hacc
    · exact h.open_ u (List.mem_cons_of_mem _ hu)
  · refine List.pairwise_append.mpr ⟨?_, List.pairwise_cons.mpr ⟨?_, honce.2⟩, ?_⟩
    · refine List.pairwise_of_forall_mem_list fun w hw w' _ u hu => ?_
      obtain ⟨y, -, rfl⟩ := hpushed w hw
      cases hu
    · intro w hw u hu hw'
      obtain rfl := Work.exit.inj hu
      exact hnot (hw' ▸ hw)
    · intro w hw w' _ u hu
      obtain ⟨y, -, rfl⟩ := hpushed w hw
      cases hu
  · refine List.pairwise_append.mpr ⟨?_, List.pairwise_cons.mpr ⟨?_, hchain.2⟩, ?_⟩
    · refine List.pairwise_of_forall_mem_list fun w _ w' hw' g hg => ?_
      obtain ⟨y, -, rfl⟩ := hpushed w' hw'
      cases hg
    · exact fun w hw g hg => hchain.1 w hw g hg
    · intro w hw w' hw' g hg
      obtain ⟨y, hy, rfl⟩ := hpushed w hw
      rcases List.mem_cons.mp hw' with rfl | hw'
      · obtain rfl := Work.exit.inj hg
        exact ReflTransGen.single hy
      · exact (hchain.1 w' hw' g hg).tail hy
  · exact fun x hx y hy => Set.mem_insert_of_mem v (h.closed x hx y hy)
  -- what is pushed covers the neighbours of `v`
  · rw [← List.map_reverse]
    refine Covered.push _ ⟨fun y hy => Or.inr ?_, ?_⟩
    · exact Or.inr (List.mem_reverse.mpr hy)
    · refine Covered.mono h.covered fun y hy => ?_
      rcases hy with hy | rfl | hy
      · exact Or.inl (Set.mem_insert_of_mem v hy)
      · exact Or.inl (Set.mem_insert ..)
      · exact absurd hy (Set.notMem_empty y)
  · rcases (hexit g).mp hg with rfl | hg
    · exact ⟨[], acc, rfl, fun z hz => absurd hz List.not_mem_nil,
        fun x hx hedge => hv (h.closed x hx _ hedge)⟩
    · exact h.since g (List.mem_cons_of_mem _ hg)

/-- What one step keeps. -/
theorem Inv.step {s s' : State V} (h : Inv adj s) (hstep : Step adj s s') : Inv adj s' := by
  cases hstep with
  | exit v rest visited acc => exact inv_exit h
  | seen v rest visited acc hv => exact inv_seen h hv
  | visit v rest visited acc hv => exact inv_visit h hv

/-- What a whole search keeps. -/
theorem Inv.run {s s' : State V} (h : Inv adj s) (run : ReflTransGen (Step adj) s s') :
    Inv adj s' := by
  induction run with
  | refl => exact h
  | tail _ hstep ih => exact ih.step hstep

/-- A vertex that has been entered or is to be entered stays so. -/
theorem known_run {s s' : State V} (run : ReflTransGen (Step adj) s s') {v : V}
    (h : v ∈ s.visited ∨ .enter v ∈ s.stack) : v ∈ s'.visited ∨ .enter v ∈ s'.stack := by
  induction run with
  | refl => exact h
  | tail _ hstep ih =>
    cases hstep with
    | exit u rest visited acc => simpa using ih
    | seen u rest visited acc hu =>
      rcases ih with ih | ih
      · exact Or.inl ih
      · rcases List.mem_cons.mp ih with heq | ih
        · obtain rfl := Work.enter.inj heq
          exact Or.inl hu
        · exact Or.inr ih
    | visit u rest visited acc hu =>
      rcases ih with ih | ih
      · exact Or.inl (Set.mem_insert_of_mem u ih)
      · rcases List.mem_cons.mp ih with heq | ih
        · obtain rfl := Work.enter.inj heq
          exact Or.inl (Set.mem_insert ..)
        · exact Or.inr (List.mem_append_right _ (List.mem_cons_of_mem _ ih))

/-- Before any search. -/
theorem inv_empty : Inv adj ⟨[], ∅, []⟩ where
  visited v := by simp
  nodup := List.nodup_nil
  open_ _ _ := List.not_mem_nil
  once := List.Pairwise.nil
  chain := List.Pairwise.nil
  closed _ hx := absurd hx List.not_mem_nil
  covered := trivial
  ordered := trivial
  since _ hg := absurd hg List.not_mem_nil

/-- A search that has ended may be followed by one from another vertex. -/
theorem Inv.root {visited : Set V} {acc : List V} (h : Inv adj ⟨[], visited, acc⟩) (v : V) :
    Inv adj ⟨[.enter v], visited, acc⟩ where
  visited u := by
    rw [h.visited u]
    simp
  nodup := h.nodup
  open_ u hu := by simp at hu
  once := List.pairwise_singleton _ _
  chain := List.pairwise_singleton _ _
  closed := h.closed
  covered := trivial
  ordered := h.ordered
  since g hg := by simp at hg

end DepthFirst

import EcoCompiler.DepthFirst

/-! # Strongly connected components in the order of a search

    The vertices are taken in the order in which a search of the reversed graph left them,
    last first; what each reaches outside the components collected so far is its component.

    * `Avoiding` — reaching a vertex without meeting a set, and `Collecting`, a search for
      what is reached so;
    * `avoiding_iff_mutual` — outside the collected components, that is the component;
    * `Components` — what is collected, `Components.cons` one more. -/

namespace DepthFirst

open Relation

variable {V : Type} {E : V → V → Prop}

/-- Each of two vertices reaches the other. -/
def Mutual (E : V → V → Prop) (u v : V) : Prop := ReflTransGen E u v ∧ ReflTransGen E v u

theorem Mutual.symm {u v : V} (h : Mutual E u v) : Mutual E v u := ⟨h.2, h.1⟩

theorem Mutual.trans {u v w : V} (h : Mutual E u v) (h' : Mutual E v w) : Mutual E u w :=
  ⟨h.1.trans h'.1, h'.2.trans h.2⟩

/-- `v` reaches `u` and meets no vertex of `S` on the way. -/
def Avoiding (E : V → V → Prop) (S : Set V) : V → V → Prop :=
  ReflTransGen fun a b => E a b ∧ b ∉ S

theorem Avoiding.reaches {S : Set V} {v u : V} (h : Avoiding E S v u) : ReflTransGen E v u :=
  h.lift id fun _ _ hab => hab.1

/-- No edge leaves `S`. -/
def Closed (E : V → V → Prop) (S : Set V) : Prop := ∀ x ∈ S, ∀ y, E x y → y ∈ S

theorem Closed.reaches {S : Set V} (h : Closed E S) {x y : V} (hx : x ∈ S)
    (path : ReflTransGen E x y) : y ∈ S := by
  induction path with
  | refl => exact hx
  | tail _ hstep ih => exact h _ ih _ hstep

/-- A path to a vertex outside a closed set does not meet the set. -/
theorem Closed.avoiding {S : Set V} (h : Closed E S) {v u : V} (hu : u ∉ S)
    (path : ReflTransGen E v u) : Avoiding E S v u := by
  induction path with
  | refl => exact ReflTransGen.refl
  | @tail x y _ hstep ih => exact (ih fun hx => hu (h x hx y hstep)).tail ⟨hstep, hu⟩

/-- What a search outside `S` finds, once nothing is pending. -/
theorem mem_iff_avoiding {S N : Set V} {v : V} (start : v ∈ N)
    (sound : ∀ u ∈ N, Avoiding E S v u) (closed : ∀ x ∈ N, ∀ y, E x y → y ∈ N ∨ y ∈ S) (u : V) :
    u ∈ N ↔ Avoiding E S v u := by
  refine ⟨sound u, fun path => ?_⟩
  induction path with
  | refl => exact start
  | tail _ hstep ih => exact (closed _ ih _ hstep.1).resolve_right hstep.2

/-- In the middle of a search from `v` outside `S`: the vertices still to look at, those seen
    in this search or before, and those found besides `v`. -/
structure Collecting (adj : V → List V) (S : Set V) (v : V) (stack : List V) (visited : Set V)
    (acc : List V) : Prop where
  visited_iff : ∀ u, u ∈ visited ↔ u ∈ S ∨ u ∈ acc ++ [v]
  nodup : (acc ++ [v]).Nodup
  fresh : ∀ u ∈ acc ++ [v], u ∉ S
  sound : ∀ u ∈ acc ++ [v], Avoiding (Edge adj) S v u
  pending : ∀ y ∈ stack, ∃ x ∈ acc ++ [v], y ∈ adj x
  covered : ∀ x ∈ acc ++ [v], ∀ y ∈ adj x, y ∈ stack ∨ y ∈ visited

section

variable {adj : V → List V} {S visited : Set V} {v y : V} {stack acc : List V}

theorem Collecting.start (adj : V → List V) {S : Set V} {v : V} (hv : v ∉ S) :
    Collecting adj S v (adj v).reverse (insert v S) [] where
  visited_iff u := by
    simp only [Set.mem_insert_iff, List.nil_append, List.mem_singleton]
    exact Or.comm
  nodup := List.nodup_singleton v
  fresh u hu := by
    rw [List.mem_singleton.mp hu]
    exact hv
  sound u hu := by
    rw [List.mem_singleton.mp hu]
    exact ReflTransGen.refl
  pending y hy := ⟨v, List.mem_singleton_self v, List.mem_reverse.mp hy⟩
  covered x hx y hy := by
    rw [List.mem_singleton.mp hx] at hy
    exact Or.inl (List.mem_reverse.mpr hy)

/-- A vertex is met again. -/
theorem Collecting.seen (h : Collecting adj S v (y :: stack) visited acc) (hy : y ∈ visited) :
    Collecting adj S v stack visited acc where
  visited_iff := h.visited_iff
  nodup := h.nodup
  fresh := h.fresh
  sound := h.sound
  pending u hu := h.pending u (List.mem_cons_of_mem y hu)
  covered x hx u hu := by
    rcases h.covered x hx u hu with hu | hu
    · rcases List.mem_cons.mp hu with rfl | hu
      · exact Or.inr hy
      · exact Or.inl hu
    · exact Or.inr hu

/-- A vertex is found. -/
theorem Collecting.visit (h : Collecting adj S v (y :: stack) visited acc) (hy : y ∉ visited) :
    Collecting adj S v ((adj y).reverse ++ stack) (insert y visited) (y :: acc) where
  visited_iff u := by
    rw [Set.mem_insert_iff, h.visited_iff u, List.cons_append, List.mem_cons]
    exact or_left_comm
  nodup := List.nodup_cons.mpr ⟨fun hmem => hy ((h.visited_iff y).mpr (Or.inr hmem)), h.nodup⟩
  fresh u hu := by
    rcases List.mem_cons.mp hu with rfl | hu
    · exact fun hS => hy ((h.visited_iff _).mpr (Or.inl hS))
    · exact h.fresh u hu
  sound u hu := by
    rcases List.mem_cons.mp hu with rfl | hu
    · obtain ⟨x, hx, hedge⟩ := h.pending _ (List.mem_cons_self ..)
      exact (h.sound x hx).tail ⟨hedge, fun hS => hy ((h.visited_iff _).mpr (Or.inl hS))⟩
    · exact h.sound u hu
  pending u hu := by
    rcases List.mem_append.mp hu with hu | hu
    · exact ⟨y, List.mem_cons_self .., List.mem_reverse.mp hu⟩
    · obtain ⟨x, hx, hedge⟩ := h.pending u (List.mem_cons_of_mem y hu)
      exact ⟨x, List.mem_cons_of_mem y hx, hedge⟩
  covered x hx u hu := by
    rcases List.mem_cons.mp hx with rfl | hx
    · exact Or.inl (List.mem_append_left _ (List.mem_reverse.mpr hu))
    · rcases h.covered x hx u hu with hu | hu
      · rcases List.mem_cons.mp hu with rfl | hu
        · exact Or.inr (Set.mem_insert ..)
        · exact Or.inl (List.mem_append_right _ hu)
      · exact Or.inr (Set.mem_insert_of_mem y hu)

/-- What a search has found once nothing is left to look at. -/
theorem Collecting.mem_iff (h : Collecting adj S v [] visited acc) (u : V) :
    u ∈ acc ++ [v] ↔ Avoiding (Edge adj) S v u := by
  refine mem_iff_avoiding (N := {x | x ∈ acc ++ [v]}) (by simp) h.sound (fun x hx y hxy => ?_) u
  rcases h.covered x hx y hxy with hy | hy
  · exact absurd hy List.not_mem_nil
  · exact ((h.visited_iff y).mp hy).symm

end

/-- Outside the components already collected, what a vertex reaches is its component. -/
theorem avoiding_iff_mutual {A B : List V} {v u : V} {S : Set V}
    (ordered : Ordered (flip E) (A ++ v :: B)) (before : ∀ a ∈ A, a ∈ S)
    (all : ∀ x y, E x y → y ∈ A ++ v :: B) (hv : v ∉ S) (closed : Closed E S) :
    Avoiding E S v u ↔ Mutual E v u := by
  constructor
  · intro path
    refine ⟨path.reaches, ?_⟩
    have inside : ReflTransGen (fun a b => E a b ∧ b ∈ v :: B) v u := by
      refine path.lift id fun a b hab => ⟨hab.1, ?_⟩
      exact (List.mem_append.mp (all a b hab.1)).resolve_left fun hb => hab.2 (before b hb)
    exact (ordered.back inside.swap).swap
  · intro h
    exact closed.avoiding (fun hu => hv (closed.reaches hu h.2)) h.1

/-! ## The components collected so far -/

/-- Every edge that leaves a component leads to one collected earlier. -/
def Sorted (E : V → V → Prop) : List (List V) → Prop
  | [] => True
  | c :: older => (∀ u ∈ c, ∀ w, E u w → w ∈ c ∨ w ∈ older.flatten) ∧ Sorted E older

theorem Sorted.closed {comps : List (List V)} (h : Sorted E comps) :
    Closed E {x | x ∈ comps.flatten} := by
  induction comps with
  | nil => exact fun x hx => absurd hx List.not_mem_nil
  | cons c older ih =>
    intro x hx y hxy
    rcases List.mem_append.mp hx with hx | hx
    · exact List.mem_append.mpr (h.1 x hx y hxy)
    · exact List.mem_append_right _ (ih h.2 x hx y hxy)

/-- The components collected so far, latest first. -/
structure Components (E : V → V → Prop) (comps : List (List V)) : Prop where
  nodup : comps.flatten.Nodup
  classes : ∀ c ∈ comps, ∀ u ∈ c, ∀ w, w ∈ c ↔ Mutual E u w
  sorted : Sorted E comps

theorem Components.nil : Components E [] where
  nodup := List.nodup_nil
  classes _ hc := absurd hc List.not_mem_nil
  sorted := trivial

/-- The next component. -/
theorem Components.cons {comps : List (List V)} {A B c : List V} {v : V}
    (h : Components E comps) (ordered : Ordered (flip E) (A ++ v :: B))
    (before : ∀ a ∈ A, a ∈ comps.flatten) (all : ∀ x y, E x y → y ∈ A ++ v :: B)
    (hv : v ∉ comps.flatten) (nodup : c.Nodup)
    (hc : ∀ u, u ∈ c ↔ Avoiding E {x | x ∈ comps.flatten} v u) : Components E (c :: comps) := by
  have closed := h.sorted.closed
  have hmutual : ∀ u, u ∈ c ↔ Mutual E v u := fun u =>
    (hc u).trans (avoiding_iff_mutual ordered before all hv closed)
  refine ⟨?_, ?_, fun u hu w huw => ?_, h.sorted⟩
  · refine List.nodup_append.mpr ⟨nodup, h.nodup, fun u hu w hw heq => hv ?_⟩
    rw [← heq] at hw
    exact closed.reaches hw ((hmutual u).mp hu).2
  · intro d hd u hu w
    rcases List.mem_cons.mp hd with rfl | hd
    · have huv := (hmutual u).mp hu
      rw [hmutual w]
      exact ⟨fun hw => huv.symm.trans hw, fun hw => huv.trans hw⟩
    · exact h.classes d hd u hu w
  · by_cases hw : w ∈ comps.flatten
    · exact Or.inr hw
    · refine Or.inl ((hc w).mpr (closed.avoiding hw ?_))
      exact ((hmutual u).mp hu).1.tail huw

/-- Every edge that leaves a component leads to one that stands before it. -/
theorem Sorted.before {comps before after : List (List V)} {c : List V}
    (h : Sorted E comps.reverse) (heq : comps = before ++ c :: after) {u w : V} (hu : u ∈ c)
    (huw : E u w) : w ∈ c ∨ ∃ d ∈ before, w ∈ d := by
  have hsplit : comps.reverse = after.reverse ++ c :: before.reverse := by
    rw [heq]
    simp
  rw [hsplit] at h
  have hc : Sorted E (c :: before.reverse) := by
    generalize after.reverse = later at h
    induction later with
    | nil => exact h
    | cons d later ih => exact ih h.2
  refine (hc.1 u hu w huw).imp_right fun hw => ?_
  obtain ⟨d, hd, hw⟩ := List.mem_flatten.mp hw
  exact ⟨d, List.mem_reverse.mp hd, hw⟩

/-! ## Numbered vertices -/

section

variable {W : Type} {E' : W → W → Prop} {f : V → Option W}

/-- `f` names vertices of one graph by vertices of another. -/
structure Numbering (E : V → V → Prop) (E' : W → W → Prop) (f : V → Option W) : Prop where
  inj : ∀ i j a, f i = some a → f j = some a → i = j
  edge : ∀ i a b, f i = some a → (E' a b ↔ ∃ j, f j = some b ∧ E i j)
  named : ∀ i j a, f i = some a → E i j → ∃ b, f j = some b

theorem Numbering.named_of_reaches (h : Numbering E E' f) {i j : V} {a : W} (ha : f i = some a)
    (path : ReflTransGen E i j) : ∃ b, f j = some b := by
  induction path with
  | refl => exact ⟨a, ha⟩
  | tail _ hstep ih =>
    obtain ⟨c, hc⟩ := ih
    exact h.named _ _ c hc hstep

theorem Numbering.numbered_of_reaches (h : Numbering E E' f) {i : V} {a b : W} (ha : f i = some a)
    (path : ReflTransGen E' a b) : ∃ j, f j = some b := by
  induction path with
  | refl => exact ⟨i, ha⟩
  | @tail c d _ hstep ih =>
    obtain ⟨k, hk⟩ := ih
    obtain ⟨l, hl, -⟩ := (h.edge k c d hk).mp hstep
    exact ⟨l, hl⟩

theorem Numbering.reaches (h : Numbering E E' f) {i : V} {a : W} (ha : f i = some a) {j : V}
    {b : W} (hb : f j = some b) : ReflTransGen E i j ↔ ReflTransGen E' a b := by
  constructor
  · intro path
    induction path generalizing b with
    | refl =>
      obtain rfl := Option.some.inj (ha.symm.trans hb)
      exact ReflTransGen.refl
    | @tail k j path hstep ih =>
      obtain ⟨c, hc⟩ := h.named_of_reaches ha path
      exact (ih hc).tail ((h.edge k c b hc).mpr ⟨j, hb, hstep⟩)
  · intro path
    induction path generalizing j with
    | refl =>
      obtain rfl := h.inj i j a ha hb
      exact ReflTransGen.refl
    | @tail c b path hstep ih =>
      obtain ⟨k, hk⟩ := h.numbered_of_reaches ha path
      obtain ⟨l, hl, hkl⟩ := (h.edge k c b hk).mp hstep
      obtain rfl := h.inj l j b hl hb
      exact (ih hk).tail hkl

theorem Numbering.mutual (h : Numbering E E' f) {i j : V} {a b : W} (ha : f i = some a)
    (hb : f j = some b) : Mutual E i j ↔ Mutual E' a b :=
  and_congr (h.reaches ha hb) (h.reaches hb ha)

theorem Sorted.numbered (h : Numbering E E' f) {comps : List (List V)} (hcomps : Sorted E comps) :
    Sorted E' (comps.map fun c => c.filterMap f) := by
  induction comps with
  | nil => trivial
  | cons c older ih =>
    refine ⟨fun a ha b hab => ?_, ih hcomps.2⟩
    obtain ⟨i, hi, ha⟩ := List.mem_filterMap.mp ha
    obtain ⟨j, hb, hij⟩ := (h.edge i a b ha).mp hab
    refine (hcomps.1 i hi j hij).imp (fun hj => ?_) fun hj => ?_
    · exact List.mem_filterMap.mpr ⟨j, hj, hb⟩
    · obtain ⟨d, hd, hj⟩ := List.mem_flatten.mp hj
      exact List.mem_flatten.mpr ⟨_, List.mem_map_of_mem hd, List.mem_filterMap.mpr ⟨j, hj, hb⟩⟩

/-- The components of the one graph are those of the other, vertex for vertex. -/
theorem Components.numbered (h : Numbering E E' f) {comps : List (List V)}
    (hcomps : Components E comps) : Components E' (comps.map fun c => c.filterMap f) := by
  refine ⟨?_, fun d hd a ha b => ?_, hcomps.sorted.numbered h⟩
  · rw [← List.filterMap_flatten]
    exact hcomps.nodup.filterMap fun i j a hi hj => h.inj i j a hi hj
  · obtain ⟨c, hc, rfl⟩ := List.mem_map.mp hd
    obtain ⟨i, hi, ha⟩ := List.mem_filterMap.mp ha
    rw [List.mem_filterMap]
    constructor
    · rintro ⟨j, hj, hb⟩
      exact (h.mutual ha hb).mp ((hcomps.classes c hc i hi j).mp hj)
    · intro hab
      obtain ⟨j, hb⟩ := h.numbered_of_reaches ha hab.1
      exact ⟨j, (hcomps.classes c hc i hi j).mpr ((h.mutual ha hb).mpr hab), hb⟩

end

end DepthFirst

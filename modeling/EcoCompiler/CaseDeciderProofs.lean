import EcoCompiler.CaseDecider
import EcoCompiler.DecisionTreeProofs

/-! # Compiling a case

    * `treeToDecider_spec`: a decider takes a value to the leaf its tree does;
    * `choices_once`: each body is placed once, inline or in the jump list;
    * `optimize_firstMatch`: the node of an exhaustive `case` runs the first branch
      whose pattern matches. -/

open TypedPath (ContainerHint Path)

namespace CaseDecider

open DecisionTree (TreeOk)

/-! ## Equality of deciders -/

mutual

/-- Deciders that the comparison finds the same are equal. -/
theorem eq_of_same (a b : Decider Nat) (h : a.same b = true) : a = b := by
  cases a with
  | Leaf x =>
      cases b with
      | Leaf y => rw [of_decide_eq_true h]
      | Chain ts s f => cases h
      | FanOut p es f => cases h
  | Chain ts s f =>
      cases b with
      | Leaf y => cases h
      | Chain ts' s' f' =>
          rw [Decider.same, Bool.and_eq_true, Bool.and_eq_true] at h
          obtain ⟨⟨hts, hs⟩, hf⟩ := h
          rw [of_decide_eq_true hts, eq_of_same s s' hs, eq_of_same f f' hf]
      | FanOut p es f => cases h
  | FanOut p es f =>
      cases b with
      | Leaf y => cases h
      | Chain ts s f => cases h
      | FanOut p' es' f' =>
          rw [Decider.same, Bool.and_eq_true, Bool.and_eq_true] at h
          obtain ⟨⟨hp, hes⟩, hf⟩ := h
          rw [of_decide_eq_true hp, eq_of_sameEdges es es' hes, eq_of_same f f' hf]

theorem eq_of_sameEdges (es es' : List (FanTest × Decider Nat)) (h : sameEdges es es' = true) :
    es = es' := by
  match es, es', h with
  | [], [], _ => rfl
  | (t, d) :: es, (t', d') :: es', h =>
      rw [sameEdges, Bool.and_eq_true, Bool.and_eq_true] at h
      obtain ⟨⟨ht, hd⟩, hes⟩ := h
      rw [of_decide_eq_true ht, eq_of_same d d' hd, eq_of_sameEdges es es' hes]

end

/-! ## The first way out -/

/-- The outcome of the first test that a value passes, or of the fallback. -/
def firstPass {β : Type} (w : Value) : List (Test × Option β) → Option β → Option β
  | [], fallback => fallback
  | (test, outcome) :: rest, fallback =>
      match test.passes w with
      | none => none
      | some true => outcome
      | some false => firstPass w rest fallback

/-- The first test decides, or is passed by. -/
theorem firstPass_cons {β : Type} {w : Value} {test : Test} {outcome : Option β}
    {rest : List (Test × Option β)} {fallback : Option β} {goal : β}
    (h : firstPass w ((test, outcome) :: rest) fallback = some goal) :
    (test.passes w = some true ∧ outcome = some goal)
      ∨ (test.passes w = some false ∧ firstPass w rest fallback = some goal) := by
  rw [firstPass] at h
  cases hp : test.passes w with
  | none =>
      rw [hp] at h
      cases h
  | some b =>
      rw [hp] at h
      cases b with
      | true => exact .inl ⟨rfl, h⟩
      | false => exact .inr ⟨rfl, h⟩

/-- Outcomes that agree where they matter. -/
theorem firstPass_mono {β : Type} {w : Value} {xs ys : List (Test × Option β)}
    {fx fy : Option β} {goal : β}
    (hxy : List.Forall₂ (fun x y => y.1 = x.1 ∧ (x.2 = some goal → y.2 = some goal)) xs ys)
    (hf : fx = some goal → fy = some goal) (h : firstPass w xs fx = some goal) :
    firstPass w ys fy = some goal := by
  induction hxy with
  | nil => exact hf h
  | @cons x y xs ys hab _ ih =>
      obtain ⟨test, outcome⟩ := x
      obtain ⟨test', outcome'⟩ := y
      obtain ⟨rfl, hout⟩ := hab
      rw [firstPass]
      rcases firstPass_cons h with ⟨hp, ho⟩ | ⟨hp, hr⟩
      · rw [hp]
        exact hout ho
      · rw [hp]
        exact ih hr

/-- The last of tests that are enough needs no test. -/
theorem firstPass_last {β : Type} {w : Value} (xs : List (Test × Option β))
    (last : Test × Option β) {goal : β} (h : firstPass w (xs ++ [last]) none = some goal) :
    firstPass w xs last.2 = some goal := by
  induction xs with
  | nil =>
      rcases firstPass_cons h with ⟨-, ho⟩ | ⟨-, hr⟩
      · exact ho
      · cases hr
  | cons x xs ih =>
      obtain ⟨test, outcome⟩ := x
      rw [firstPass]
      rcases firstPass_cons h with ⟨hp, ho⟩ | ⟨hp, hr⟩
      · rw [hp]
        exact ho
      · rw [hp]
        exact ih hr

/-- The tree's edges answer with the first test that passes. -/
theorem evalEdges_eq (v w : Value) (edges : List (Test × DecisionTree.DecisionTree))
    (fallback : Option Nat) :
    DecisionTree.evalEdges v w edges fallback
      = firstPass w (edges.map fun e => (e.1, e.2.eval v)) fallback := by
  induction edges with
  | nil => rw [DecisionTree.evalEdges]; rfl
  | cons e es ih =>
      obtain ⟨test, tree⟩ := e
      rw [DecisionTree.evalEdges, List.map_cons, firstPass]
      cases test.passes w with
      | none => rfl
      | some b =>
          cases b with
          | true => rfl
          | false => exact ih

/-- A fan's edges answer with the first test that passes. -/
theorem evalFan_eq {α : Type} (v w : Value) (edges : List (FanTest × Decider α))
    (fallback : Option α) :
    evalFan v w edges fallback
      = firstPass w (edges.map fun e => (fromFanTest e.1, e.2.eval v)) fallback := by
  induction edges with
  | nil => rw [evalFan]; rfl
  | cons e es ih =>
      obtain ⟨test, decider⟩ := e
      rw [evalFan, List.map_cons, firstPass]
      cases (fromFanTest test).passes w with
      | none => rfl
      | some b =>
          cases b with
          | true => rfl
          | false => exact ih

/-! ## Chains -/

/-- A chain goes on where its test leads. -/
theorem toChain_eval {path : Path} {test : Test} {s f : Decider Nat} {v w : Value} {goal : Nat}
    (hget : path.get v = some w)
    (h : firstPass w [(test, s.eval v)] (f.eval v) = some goal) :
    (toChain path test s f).eval v = some goal := by
  have hone : (Decider.Chain [(path, test)] s f).eval v = some goal := by
    rw [Decider.eval, runTests, hget, Option.bind_some]
    rcases firstPass_cons h with ⟨hp, ho⟩ | ⟨hp, hr⟩
    · rw [hp]
      exact ho
    · rw [hp]
      exact hr
  cases s with
  | Leaf target => exact hone
  | FanOut q es g => exact hone
  | Chain tests s' g =>
      rw [toChain]
      by_cases hsame : f.same g = true
      · rw [if_pos hsame]
        obtain rfl := eq_of_same f g hsame
        rw [Decider.eval, runTests, hget, Option.bind_some]
        rcases firstPass_cons h with ⟨hp, ho⟩ | ⟨hp, hr⟩
        · rw [hp]
          rw [Decider.eval] at ho
          exact ho
        · rw [hp]
          exact hr
      · rw [if_neg hsame]
        exact hone

/-- A chain has no leaves but those of its two branches. -/
theorem toChain_leaves {path : Path} {test : Test} {s f : Decider Nat} {k : Nat}
    (h : k ∈ (toChain path test s f).leaves) : k ∈ s.leaves ∨ k ∈ f.leaves := by
  have hone : k ∈ (Decider.Chain [(path, test)] s f).leaves → k ∈ s.leaves ∨ k ∈ f.leaves := by
    intro h
    rw [Decider.leaves] at h
    exact List.mem_append.mp h
  cases s with
  | Leaf target => exact hone h
  | FanOut q es g => exact hone h
  | Chain tests s' g =>
      rw [toChain] at h
      by_cases hsame : f.same g = true
      · rw [if_pos hsame, Decider.leaves] at h
        rw [Decider.leaves]
        rcases List.mem_append.mp h with h | h
        · exact .inl (List.mem_append_left _ h)
        · exact .inr h
      · rw [if_neg hsame] at h
        exact hone h

/-! ## Trees -/

/-- A decider with leaves in `P` that takes a value where a tree does. -/
structure Follows (P : Nat → Prop) (tree : DecisionTree.DecisionTree) (decider : Decider Nat) :
    Prop where
  leaves : ∀ k ∈ decider.leaves, P k
  eval : ∀ v goal, tree.eval v = some goal → decider.eval v = some goal

/-- A list of two or more, split before its last. -/
theorem splitLast_eq {α : Type} (first second : α) (more : List α) :
    first :: second :: more
      = (splitLast first second more).1 ++ [(splitLast first second more).2] := by
  induction more generalizing first second with
  | nil => rfl
  | cons third rest ih =>
      rw [splitLast, List.cons_append, ← ih second third]

theorem splitLast_map {α β : Type} (f : α → β) (first second : α) (more : List α) :
    splitLast (f first) (f second) (more.map f)
      = ((splitLast first second more).1.map f, f (splitLast first second more).2) := by
  induction more generalizing first second with
  | nil => rfl
  | cons third rest ih => rw [List.map_cons, splitLast, splitLast, ih second third]; rfl

/-- A test survives the way into a fan and back. -/
theorem fromFanTest_of_toFanTest {test : Test} {fanTest : FanTest}
    (h : toFanTest test = some fanTest) : fromFanTest fanTest = test := by
  cases test <;> simp [toFanTest] at h <;> subst h <;> rfl

/-- The fan edges of deciders that are there. -/
theorem mapM_toFanEdge {ds : List (Test × Decider Nat)}
    (h : ∀ d ∈ ds, ∃ fanTest, toFanTest d.1 = some fanTest) :
    ∃ es, (ds.map fun d => (d.1, some d.2)).mapM toFanEdge = some es
      ∧ List.Forall₂ (fun d e => fromFanTest e.1 = d.1 ∧ e.2 = d.2) ds es := by
  induction ds with
  | nil => exact ⟨[], rfl, .nil⟩
  | cons d ds ih =>
      obtain ⟨fanTest, hfan⟩ := h d List.mem_cons_self
      obtain ⟨es, hes, hall⟩ := ih fun x hx => h x (List.mem_cons_of_mem _ hx)
      refine ⟨(fanTest, d.2) :: es, ?_, .cons ⟨fromFanTest_of_toFanTest hfan, rfl⟩ hall⟩
      rw [List.map_cons, List.mapM_cons, hes, toFanEdge, hfan]
      rfl

/-- A leaf of a fan is a leaf of one of its edges. -/
theorem fanLeaves_mem {es : List (FanTest × Decider Nat)} {k : Nat} (h : k ∈ fanLeaves es) :
    ∃ e ∈ es, k ∈ e.2.leaves := by
  induction es with
  | nil =>
      rw [fanLeaves] at h
      exact absurd h List.not_mem_nil
  | cons e es ih =>
      obtain ⟨test, d⟩ := e
      rw [fanLeaves] at h
      rcases List.mem_append.mp h with h | h
      · exact ⟨_, List.mem_cons_self, h⟩
      · obtain ⟨e, he, hk⟩ := ih h
        exact ⟨e, List.mem_cons_of_mem _ he, hk⟩

/-- A fan-out of deciders that are there. -/
theorem fanOutOf_spec {P : Nat → Prop} (path : Path) {ds : List (Test × Decider Nat)}
    {f : Decider Nat} (hfan : ∀ d ∈ ds, ∃ fanTest, toFanTest d.1 = some fanTest)
    (hds : ∀ d ∈ ds, ∀ k ∈ d.2.leaves, P k) (hf : ∀ k ∈ f.leaves, P k) :
    ∃ d, fanOutOf path (ds.map fun d => (d.1, some d.2)) (some f) = some d
      ∧ (∀ k ∈ d.leaves, P k)
      ∧ ∀ v w goal, path.get v = some w →
        firstPass w (ds.map fun d => (d.1, d.2.eval v)) (f.eval v) = some goal →
        d.eval v = some goal := by
  obtain ⟨es, hes, hall⟩ := mapM_toFanEdge hfan
  refine ⟨.FanOut path es f, ?_, fun k hk => ?_, fun v w goal hget h => ?_⟩
  · rw [fanOutOf]
    simp only [hes]
  · rw [Decider.leaves] at hk
    rcases List.mem_append.mp hk with hk | hk
    · exact hf k hk
    · obtain ⟨e, he, hke⟩ := fanLeaves_mem hk
      obtain ⟨d, hd, -, heq⟩ := DecisionTree.exists_of_forall₂ hall he
      rw [heq] at hke
      exact hds d hd k hke
  · rw [Decider.eval, hget]
    show evalFan v w es (f.eval v) = some goal
    rw [evalFan_eq]
    refine firstPass_mono ?_ id h
    rw [List.forall₂_map_left_iff, List.forall₂_map_right_iff]
    refine hall.imp fun d e hde => ⟨hde.1, fun h => ?_⟩
    rw [hde.2]
    exact h

/-- A chain of deciders that are there. -/
theorem chainOf_spec {P : Nat → Prop} (path : Path) (test : Test) {s f : Decider Nat}
    (hs : ∀ k ∈ s.leaves, P k) (hf : ∀ k ∈ f.leaves, P k) :
    ∃ d, chainOf path test (some s) (some f) = some d ∧ (∀ k ∈ d.leaves, P k)
      ∧ ∀ v w goal, path.get v = some w →
        firstPass w [(test, s.eval v)] (f.eval v) = some goal → d.eval v = some goal :=
  ⟨_, rfl, fun k hk => (toChain_leaves hk).elim (hs k) (hf k),
    fun _ _ _ hget h => toChain_eval hget h⟩

/-- The node of deciders that are there, in each of its cases. -/
theorem nodeToDecider_spec {P : Nat → Prop} (path : Path) (ds : List (Test × Decider Nat))
    (fb : Option (Decider Nat)) (hne : ds ≠ [])
    (hfan : 3 ≤ ds.length + fb.toList.length →
      ∀ d ∈ ds, ∃ fanTest, toFanTest d.1 = some fanTest)
    (hds : ∀ d ∈ ds, ∀ k ∈ d.2.leaves, P k) (hfb : ∀ f, fb = some f → ∀ k ∈ f.leaves, P k) :
    ∃ d, nodeToDecider path (ds.map fun d => (d.1, some d.2)) (fb.map some) = some d
      ∧ (∀ k ∈ d.leaves, P k)
      ∧ ∀ v w goal, path.get v = some w →
        firstPass w (ds.map fun d => (d.1, d.2.eval v)) (fb.bind (Decider.eval v)) = some goal →
        d.eval v = some goal := by
  match ds, fb, hne with
  | [(test, s)], none, _ =>
      -- a single path forward
      refine ⟨s, rfl, hds _ List.mem_cons_self, fun v w goal _ h => ?_⟩
      rcases firstPass_cons h with ⟨-, ho⟩ | ⟨-, hr⟩
      · exact ho
      · cases hr
  | [(test, s)], some f, _ =>
      exact chainOf_spec path test (hds _ List.mem_cons_self) (hfb f rfl)
  | [(test, s), (test', s')], none, _ =>
      -- two edges that are complete
      obtain ⟨d, hd, hleaves, heval⟩ := chainOf_spec path test
        (hds _ List.mem_cons_self) (hds (test', s') (by simp))
      refine ⟨d, hd, hleaves, fun v w goal hget h => heval v w goal hget ?_⟩
      exact firstPass_last [(test, s.eval v)] (test', s'.eval v) h
  | d1 :: d2 :: d3 :: more, none, _ =>
      -- the last edge stands in as the fallback
      have hall := hfan (by simp)
      have hsplit := splitLast_eq d1 d2 (d3 :: more)
      obtain ⟨init, last, hrest⟩ : ∃ init last, splitLast d1 d2 (d3 :: more) = (init, last) :=
        ⟨_, _, rfl⟩
      rw [hrest] at hsplit
      have hmem : ∀ d ∈ init, d ∈ d1 :: d2 :: d3 :: more := fun d hd =>
        hsplit ▸ List.mem_append_left _ hd
      have hlast : last ∈ d1 :: d2 :: d3 :: more :=
        hsplit ▸ List.mem_append_right _ List.mem_cons_self
      obtain ⟨d, hd, hleaves, heval⟩ := fanOutOf_spec path
        (fun x hx => hall x (hmem x hx)) (fun x hx => hds x (hmem x hx)) (hds last hlast)
      refine ⟨d, ?_, hleaves, fun v w goal hget h => heval v w goal hget ?_⟩
      · rw [← hd]
        have hmap := splitLast_map (fun d : Test × Decider Nat => (d.1, some d.2)) d1 d2
          (d3 :: more)
        rw [hrest] at hmap
        rw [List.map_cons] at hmap
        rw [List.map_cons, List.map_cons, List.map_cons, Option.map_none, nodeToDecider, hmap]
      · rw [hsplit, List.map_append] at h
        exact firstPass_last _ _ h
  | d1 :: d2 :: more, some f, _ =>
      have hall := hfan (by simp)
      cases more <;> exact fanOutOf_spec path hall hds (hfb f rfl)

/-- A tree becomes a decider that takes each value to the same leaf. -/
theorem treeToDecider_spec {P : Nat → Prop} {tree : DecisionTree.DecisionTree}
    (h : TreeOk P tree) :
    ∃ decider, treeToDecider tree = some decider ∧ Follows P tree decider := by
  -- one case for a leaf and one for a node, whose edges and fallback have their deciders
  induction h with
  | @leaf goal h =>
      refine ⟨.Leaf goal, rfl, fun k hk => ?_, fun v k hk => ?_⟩
      · rw [Decider.leaves] at hk
        rw [List.mem_singleton.mp hk]
        exact h
      · exact hk
  | @node path edges fallback hne hfan hoks hok ihe ihf =>
      obtain ⟨ds, hds, hall⟩ : ∃ ds : List (Test × Decider Nat),
          edgesToDeciders edges = ds.map (fun d => (d.1, some d.2))
            ∧ List.Forall₂ (fun e d => d.1 = e.1 ∧ Follows P e.2 d.2) edges ds := by
        clear hne hfan hoks
        induction edges with
        | nil => exact ⟨[], by rw [edgesToDeciders]; rfl, .nil⟩
        | cons e es ih =>
            obtain ⟨test, tree⟩ := e
            obtain ⟨d, hd, hfollows⟩ := ihe _ List.mem_cons_self
            obtain ⟨ds, hds, hall⟩ := ih fun e he => ihe e (List.mem_cons_of_mem _ he)
            have hd' : treeToDecider tree = some d := hd
            exact ⟨(test, d) :: ds, by rw [edgesToDeciders, hds, hd']; rfl,
              .cons ⟨rfl, hfollows⟩ hall⟩
      obtain ⟨fb, hfb, hfollows⟩ : ∃ fb : Option (Decider Nat),
          fallbackToDecider fallback = fb.map some ∧ (fb.toList.length = fallback.toList.length)
            ∧ (∀ f, fb = some f → ∀ k ∈ f.leaves, P k)
            ∧ ∀ v goal, DecisionTree.evalFallback v fallback = some goal →
              fb.bind (Decider.eval v) = some goal := by
        cases fallback with
        | none =>
            refine ⟨none, by rw [fallbackToDecider]; rfl, rfl, ?_, fun v goal h => ?_⟩
            · rintro f ⟨⟩
            · cases h
        | some tree =>
            obtain ⟨d, hd, hfollows⟩ := ihf tree rfl
            refine ⟨some d, by rw [fallbackToDecider, hd]; rfl, rfl, ?_, fun v goal h => ?_⟩
            · rintro f ⟨⟩
              exact hfollows.leaves
            · rw [DecisionTree.evalFallback] at h
              exact hfollows.eval v goal h
      obtain ⟨hlen, hfbleaves, hfbeval⟩ := hfollows
      have hdmem : ∀ d ∈ ds, ∃ e ∈ edges, d.1 = e.1 ∧ Follows P e.2 d.2 := fun d hd =>
        DecisionTree.exists_of_forall₂ hall hd
      -- a fan is made only of tests that a fan can have
      obtain ⟨decider, hdecider, hleaves, heval⟩ := nodeToDecider_spec path ds fb
        (by
          rintro rfl
          exact hne (List.forall₂_nil_right_iff.mp hall))
        (by
          rw [hlen, ← hall.length_eq]
          intro hthree d hd
          obtain ⟨e, he, heq, -⟩ := hdmem d hd
          rw [heq]
          exact hfan hthree e he)
        (by
          intro d hd
          obtain ⟨e, -, -, hfollows⟩ := hdmem d hd
          exact hfollows.leaves)
        hfbleaves
      refine ⟨decider, by rw [treeToDecider, hds, hfb, hdecider], hleaves, fun v goal h => ?_⟩
      rw [DecisionTree.DecisionTree.eval] at h
      cases hget : path.get v with
      | none =>
          rw [hget] at h
          cases h
      | some w =>
          rw [hget] at h
          replace h : DecisionTree.evalEdges v w edges (DecisionTree.evalFallback v fallback)
            = some goal := h
          rw [evalEdges_eq] at h
          refine heval v w goal hget (firstPass_mono ?_ (hfbeval v goal) h)
          rw [List.forall₂_map_left_iff, List.forall₂_map_right_iff]
          exact hall.imp fun e d hed => ⟨hed.1, hed.2.eval v goal⟩

/-! ## Counting leaves -/

mutual

/-- Counting adds to each entry the number of leaves that name it. -/
theorem countTargetsHelp_get (d : Decider Nat) (counts : List Nat) (k : Nat) :
    (countTargetsHelp counts d)[k]? = counts[k]?.map (· + d.leaves.count k) := by
  cases d with
  | Leaf target =>
      rw [countTargetsHelp, Decider.leaves, List.getElem?_set]
      by_cases htarget : target = k
      · subst htarget
        rw [if_pos rfl]
        by_cases hlt : target < counts.length
        · rw [if_pos hlt, List.getElem?_eq_getElem hlt]
          simp
        · rw [if_neg hlt, List.getElem?_eq_none (Nat.le_of_not_lt hlt)]
          rfl
      · rw [if_neg htarget, List.count_singleton, if_neg (by simpa using htarget)]
        cases counts[k]? <;> rfl
  | Chain tests s f =>
      rw [countTargetsHelp, Decider.leaves, countTargetsHelp_get f, countTargetsHelp_get s,
        Option.map_map, List.count_append]
      congr 1
      funext n
      exact Nat.add_assoc _ _ _
  | FanOut path edges f =>
      rw [countTargetsHelp, Decider.leaves, countTargetsEdges_get edges, countTargetsHelp_get f,
        Option.map_map, List.count_append]
      congr 1
      funext n
      exact Nat.add_assoc _ _ _

/-- The edges add the number of their leaves to each count. -/
theorem countTargetsEdges_get (edges : List (FanTest × Decider Nat)) (counts : List Nat)
    (k : Nat) :
    (countTargetsEdges counts edges)[k]? = counts[k]?.map (· + (fanLeaves edges).count k) := by
  match edges with
  | [] =>
      rw [countTargetsEdges, fanLeaves]
      cases counts[k]? <;> rfl
  | (test, sub) :: edges =>
      rw [countTargetsEdges, fanLeaves, countTargetsEdges_get edges, countTargetsHelp_get sub,
        Option.map_map, List.count_append]
      congr 1
      funext n
      exact Nat.add_assoc _ _ _

end

/-- The count of a branch is the number of leaves that take it. -/
theorem countTargets_get {n k : Nat} (d : Decider Nat) (hk : k < n) :
    (countTargets n d)[k]?.getD 0 = d.leaves.count k := by
  rw [countTargets, countTargetsHelp_get, List.getElem?_replicate, if_pos hk]
  exact Nat.zero_add _

/-! ## Choices -/

variable {Body : Type}

/-- A decider with each leaf replaced. -/
def Replaced {α β : Type} (f : α → Option β) (d : Decider α) (d' : Decider β) : Prop :=
  d.leaves.mapM f = some d'.leaves ∧ ∀ v, d'.eval v = (d.eval v).bind f

theorem mapM_append_some {α β : Type} {f : α → Option β} {xs ys : List α} {as bs : List β}
    (hx : xs.mapM f = some as) (hy : ys.mapM f = some bs) :
    (xs ++ ys).mapM f = some (as ++ bs) := by
  rw [List.mapM_append, hx, hy]
  rfl

mutual

/-- A number at each leaf has its choice put in its place. -/
theorem insertChoices_spec (choiceArray : List (Choice Body)) (d : Decider Nat)
    (h : ∀ k ∈ d.leaves, k < choiceArray.length) :
    ∃ d', insertChoices choiceArray d = some d' ∧ Replaced (choiceArray[·]?) d d' := by
  -- the leaves of a chain and of a fan are listed as the source goes over them
  cases d with
  | Leaf target =>
      have hlt := h target (by rw [Decider.leaves]; exact List.mem_cons_self)
      have hget : choiceArray[target]? = some choiceArray[target] := List.getElem?_eq_getElem hlt
      refine ⟨.Leaf choiceArray[target], by rw [insertChoices, hget]; rfl, ?_, fun v => ?_⟩
      · rw [Decider.leaves, Decider.leaves, List.mapM_cons, hget]
        rfl
      · rw [Decider.eval, Decider.eval]
        exact hget.symm
  | Chain tests s f =>
      rw [Decider.leaves] at h
      obtain ⟨s', hs', hsl, hse⟩ :=
        insertChoices_spec choiceArray s fun k hk => h k (List.mem_append_left _ hk)
      obtain ⟨f', hf', hfl, hfe⟩ :=
        insertChoices_spec choiceArray f fun k hk => h k (List.mem_append_right _ hk)
      refine ⟨.Chain tests s' f', by rw [insertChoices, hs', hf'], ?_, fun v => ?_⟩
      · rw [Decider.leaves, Decider.leaves]
        exact mapM_append_some hsl hfl
      · rw [Decider.eval, Decider.eval, hse, hfe]
        cases runTests v tests with
        | none => rfl
        | some b => cases b <;> rfl
  | FanOut path edges f =>
      rw [Decider.leaves] at h
      obtain ⟨es', hes', hesl, hese⟩ :=
        insertEdges_spec choiceArray edges fun k hk => h k (List.mem_append_right _ hk)
      obtain ⟨f', hf', hfl, hfe⟩ :=
        insertChoices_spec choiceArray f fun k hk => h k (List.mem_append_left _ hk)
      refine ⟨.FanOut path es' f', by rw [insertChoices, hes', hf'], ?_, fun v => ?_⟩
      · rw [Decider.leaves, Decider.leaves]
        exact mapM_append_some hfl hesl
      · rw [Decider.eval, Decider.eval]
        cases hget : path.get v with
        | none => rfl
        | some w =>
            show evalFan v w es' (f'.eval v) = (evalFan v w edges (f.eval v)).bind _
            rw [hfe]
            exact hese v w _

/-- Inserting the choices into a fan puts each leaf's own in its place. -/
theorem insertEdges_spec (choiceArray : List (Choice Body))
    (edges : List (FanTest × Decider Nat)) (h : ∀ k ∈ fanLeaves edges, k < choiceArray.length) :
    ∃ es', insertEdges choiceArray edges = some es'
      ∧ (fanLeaves edges).mapM (choiceArray[·]?) = some (fanLeaves es')
      ∧ ∀ v w fb, evalFan v w es' (fb.bind (choiceArray[·]?))
        = (evalFan v w edges fb).bind (choiceArray[·]?) := by
  match edges with
  | [] =>
      refine ⟨[], rfl, ?_, fun v w fb => ?_⟩
      · rw [fanLeaves, fanLeaves]
        rfl
      · rw [evalFan, evalFan]
  | (test, sub) :: edges =>
      rw [fanLeaves] at h
      obtain ⟨d', hd', hdl, hde⟩ :=
        insertChoices_spec choiceArray sub fun k hk => h k (List.mem_append_left _ hk)
      obtain ⟨es', hes', hesl, hese⟩ :=
        insertEdges_spec choiceArray edges fun k hk => h k (List.mem_append_right _ hk)
      refine ⟨(test, d') :: es', by rw [insertEdges, hd', hes'], ?_, fun v w fb => ?_⟩
      · rw [fanLeaves, fanLeaves]
        exact mapM_append_some hdl hesl
      · rw [evalFan, evalFan, hese, hde]
        cases (fromFanTest test).passes w with
        | none => rfl
        | some b => cases b <;> rfl

end

/-- The body a choice holds inline. -/
def Choice.inlined : Choice Body → Option Body
  | .Inline body => some body
  | .Jump _ => none

/-- The branches with their numbers. -/
def indexed (optBranches : List (Can.Pattern × Body)) : List (Nat × Body) :=
  optBranches.zipIdx.map fun entry => (entry.2, entry.1.2)

/-- A branch stands in the list under its own number. -/
theorem mem_indexed {optBranches : List (Can.Pattern × Body)} {entry : Nat × Body} :
    entry ∈ indexed optBranches ↔ ∃ p, optBranches[entry.1]? = some (p, entry.2) := by
  obtain ⟨k, body⟩ := entry
  rw [indexed, List.mem_map]
  constructor
  · rintro ⟨⟨⟨p, b⟩, j⟩, hmem, heq⟩
    obtain ⟨rfl, rfl⟩ := Prod.mk.inj heq
    exact ⟨p, List.mk_mem_zipIdx_iff_getElem?.mp hmem⟩
  · rintro ⟨p, hp⟩
    exact ⟨((p, body), k), List.mk_mem_zipIdx_iff_getElem?.mpr hp, rfl⟩

theorem indexed_fst (optBranches : List (Can.Pattern × Body)) :
    (indexed optBranches).map Prod.fst = List.range optBranches.length := by
  rw [indexed, List.map_map, List.range_eq_range', ← List.zipIdx_map_snd 0 optBranches]
  rfl

theorem indexed_snd (optBranches : List (Can.Pattern × Body)) :
    (indexed optBranches).map Prod.snd = optBranches.map Prod.snd := by
  rw [indexed, List.map_map]
  conv_rhs => rw [← List.zipIdx_map_fst 0 optBranches, List.map_map]
  rfl

theorem indexed_length (optBranches : List (Can.Pattern × Body)) :
    (indexed optBranches).length = optBranches.length := by
  rw [indexed, List.length_map, List.length_zipIdx]

/-- Whether one leaf names a branch. -/
def once (leaves : List Nat) (k : Nat) : Bool := leaves.count k = 1

/-- What a leaf that names a branch leads to. -/
def choiceOf (leaves : List Nat) (entry : Nat × Body) : Choice Body :=
  if once leaves entry.1 then .Inline entry.2 else .Jump entry.1

/-- The jump list: the branches that no leaf, or several leaves, name. -/
def jumpsOf (leaves : List Nat) (optBranches : List (Can.Pattern × Body)) : List (Nat × Body) :=
  (indexed optBranches).filter fun entry => !once leaves entry.1

/-- A branch that is taken once is put in place, and any other becomes a jump. -/
theorem createChoices_eq {d : Decider Nat} {n : Nat} {entry : Nat × Body} (hk : entry.1 < n) :
    (createChoices (countTargets n d) entry).1.2 = choiceOf d.leaves entry
      ∧ (createChoices (countTargets n d) entry).2
        = if once d.leaves entry.1 then none else some entry := by
  rw [createChoices, countTargets_get d hk, choiceOf, once]
  by_cases h : d.leaves.count entry.1 = 1
  · rw [if_pos h, decide_eq_true h]
    exact ⟨rfl, rfl⟩
  · rw [if_neg h, decide_eq_false h]
    exact ⟨rfl, rfl⟩

/-- What `optimize` builds from the tree and its decider. -/
theorem optimize_eq {optBranches : List (Can.Pattern × Body)} {tree : DecisionTree.DecisionTree}
    {d : Decider Nat} (htree : DecisionTree.compile
      (optBranches.zipIdx.map fun entry => (entry.1.1, entry.2)) = some tree)
    (hd : treeToDecider tree = some d) :
    optimize optBranches
      = (insertChoices ((indexed optBranches).map (choiceOf d.leaves)) d).map fun inserted =>
        { decider := inserted, jumps := jumpsOf d.leaves optBranches } := by
  have hlt : ∀ entry ∈ indexed optBranches, entry.1 < (indexed optBranches).length := by
    intro entry hentry
    obtain ⟨p, hp⟩ := mem_indexed.mp hentry
    rw [indexed_length]
    exact (List.getElem?_eq_some_iff.mp hp).1
  have hchoices : ((indexed optBranches).map
        (createChoices (countTargets (indexed optBranches).length d))).map (fun x => x.1.2)
      = (indexed optBranches).map (choiceOf d.leaves) := by
    rw [List.map_map]
    exact List.map_congr_left fun entry hentry => (createChoices_eq (hlt entry hentry)).1
  have hjumps : ((indexed optBranches).map
        (createChoices (countTargets (indexed optBranches).length d))).filterMap Prod.snd
      = jumpsOf d.leaves optBranches := by
    rw [List.filterMap_map, jumpsOf, ← List.filterMap_eq_filter]
    refine List.filterMap_congr fun entry hentry => ?_
    show (createChoices _ entry).2 = _
    rw [(createChoices_eq (hlt entry hentry)).2]
    cases honce : once d.leaves entry.1 <;> simp [Option.guard, honce]
  rw [optimize, htree]
  simp only [hd]
  rw [← hchoices, ← hjumps]
  rfl

theorem mapM_filterMap {α β γ : Type} {f : α → Option β} {g : β → Option γ}
    {xs : List α} {ys : List β} (h : xs.mapM f = some ys) :
    ys.filterMap g = xs.filterMap fun x => (f x).bind g := by
  induction xs generalizing ys with
  | nil =>
      obtain rfl := Option.some.inj h
      rfl
  | cons x xs ih =>
      rw [List.mapM_cons] at h
      cases hx : f x with
      | none =>
          rw [hx] at h
          cases h
      | some y =>
          cases hxs : xs.mapM f with
          | none =>
              rw [hx, hxs] at h
              cases h
          | some zs =>
              rw [hx, hxs] at h
              obtain rfl := Option.some.inj h
              rw [List.filterMap_cons, List.filterMap_cons, ih hxs, hx]
              rfl

theorem mem_of_mapM {α β : Type} {f : α → Option β} {xs : List α} {ys : List β}
    (h : xs.mapM f = some ys) {y : β} (hy : y ∈ ys) : ∃ x ∈ xs, f x = some y := by
  have hmem : y ∈ ys.filterMap some := by rwa [List.filterMap_some]
  rw [mapM_filterMap h] at hmem
  obtain ⟨x, hx, hfx⟩ := List.mem_filterMap.mp hmem
  exact ⟨x, hx, by rwa [Option.bind_fun_some] at hfx⟩

theorem exists_of_mapM {α β : Type} {f : α → Option β} {xs : List α} {ys : List β}
    (h : xs.mapM f = some ys) {x : α} (hx : x ∈ xs) : ∃ y, f x = some y := by
  induction xs generalizing ys with
  | nil => exact absurd hx List.not_mem_nil
  | cons z xs ih =>
      rw [List.mapM_cons] at h
      cases hz : f z with
      | none =>
          rw [hz] at h
          cases h
      | some y =>
          cases hxs : xs.mapM f with
          | none =>
              rw [hz, hxs] at h
              cases h
          | some zs =>
              rcases List.mem_cons.mp hx with rfl | hx
              · exact ⟨y, hz⟩
              · exact ih hxs hx

/-- The choice of a branch, by its number. -/
theorem choices_get {leaves : List Nat} {optBranches : List (Can.Pattern × Body)} {k : Nat}
    {choice : Choice Body} (h : ((indexed optBranches).map (choiceOf leaves))[k]? = some choice) :
    ∃ p body, optBranches[k]? = some (p, body) ∧ choice = choiceOf leaves (k, body) := by
  rw [List.getElem?_map, Option.map_eq_some_iff] at h
  obtain ⟨entry, hentry, rfl⟩ := h
  rw [indexed, List.getElem?_map, List.getElem?_zipIdx, Option.map_map,
    Option.map_eq_some_iff] at hentry
  obtain ⟨⟨p, body⟩, hp, rfl⟩ := hentry
  refine ⟨p, body, hp, ?_⟩
  show choiceOf leaves (0 + k, body) = _
  rw [Nat.zero_add]

/-- Each body is placed once, inline or in the jump list. -/
theorem choices_once {optBranches : List (Can.Pattern × Body)} {d : Decider Nat}
    {d' : Decider (Choice Body)}
    (h : d.leaves.mapM (((indexed optBranches).map (choiceOf d.leaves))[·]?) = some d'.leaves) :
    (d'.leaves.filterMap Choice.inlined ++ (jumpsOf d.leaves optBranches).map Prod.snd).Perm
      (optBranches.map Prod.snd) := by
  have hbody : ∀ k, k ∈ d.leaves → (((indexed optBranches).map (choiceOf d.leaves))[k]?).bind
      Choice.inlined = if once d.leaves k then (optBranches[k]?).map Prod.snd else none := by
    intro k hk
    cases hget : ((indexed optBranches).map (choiceOf d.leaves))[k]? with
    | none =>
        rw [List.getElem?_eq_none_iff, List.length_map, indexed_length] at hget
        rw [List.getElem?_eq_none hget]
        cases once d.leaves k <;> rfl
    | some choice =>
        obtain ⟨p, body, hp, rfl⟩ := choices_get hget
        rw [hp]
        show Choice.inlined (choiceOf d.leaves (k, body)) = _
        rw [choiceOf]
        cases once d.leaves k <;> rfl
  have hinlined : d'.leaves.filterMap Choice.inlined
      = (d.leaves.filter (once d.leaves)).filterMap fun k => (optBranches[k]?).map Prod.snd := by
    rw [mapM_filterMap h, List.filterMap_filter]
    exact List.filterMap_congr hbody
  -- the leaves that stand alone are the numbers named once
  have hperm : (d.leaves.filter (once d.leaves)).Perm
      (((indexed optBranches).filter fun e => once d.leaves e.1).map Prod.fst) := by
    have hfilter : ((indexed optBranches).filter fun e => once d.leaves e.1).map Prod.fst
        = (List.range optBranches.length).filter (once d.leaves) := by
      rw [← indexed_fst, List.filter_map]
      rfl
    rw [hfilter, List.perm_ext_iff_of_nodup]
    · intro k
      rw [List.mem_filter, List.mem_filter]
      refine and_congr_left fun honce => ⟨fun hk => ?_, fun _ => ?_⟩
      · obtain ⟨y, hy⟩ := exists_of_mapM h hk
        obtain ⟨p, body, hp, -⟩ := choices_get hy
        exact List.mem_range.mpr (List.getElem?_eq_some_iff.mp hp).1
      · have hcount : d.leaves.count k = 1 := of_decide_eq_true honce
        exact List.count_pos_iff.mp (by rw [hcount]; exact Nat.zero_lt_one)
    · rw [List.nodup_iff_count_le_one]
      intro k
      by_cases honce : once d.leaves k = true
      · rw [List.count_filter honce]
        exact Nat.le_of_eq (of_decide_eq_true honce)
      · rw [List.count_eq_zero_of_not_mem]
        · exact Nat.zero_le _
        · intro hmem
          exact honce (List.mem_filter.mp hmem).2
    · exact List.nodup_range.filter _
  have hsnd : ∀ es : List (Nat × Body), (∀ e ∈ es, e ∈ indexed optBranches) →
      (es.map Prod.fst).filterMap (fun k => (optBranches[k]?).map Prod.snd) = es.map Prod.snd := by
    intro es hes
    rw [List.filterMap_map, ← List.filterMap_eq_map]
    refine List.filterMap_congr fun e he => ?_
    obtain ⟨p, hp⟩ := mem_indexed.mp (hes e he)
    show (optBranches[e.1]?).map Prod.snd = some e.2
    rw [hp]
    rfl
  have hall : (d'.leaves.filterMap Choice.inlined).Perm
      (((indexed optBranches).filter fun e => once d.leaves e.1).map Prod.snd) := by
    rw [hinlined, ← hsnd _ fun e he => (List.mem_filter.mp he).1]
    exact hperm.filterMap _
  refine (hall.append_right _).trans ?_
  rw [jumpsOf, ← List.map_append, ← indexed_snd]
  exact (List.filter_append_perm _ _).map _

/-! ## The node of a case -/

/-- The first branch, in source order, whose pattern matches the value. -/
def FirstBranch (optBranches : List (Can.Pattern × Body)) (v : Value) (k : Nat) : Prop :=
  (∃ p body, optBranches[k]? = some (p, body) ∧ p.Matches v)
    ∧ ∀ j < k, ∀ p body, optBranches[j]? = some (p, body) → ¬p.Matches v

/-- A value that some branch matches has a first one. -/
theorem firstBranch_exists {optBranches : List (Can.Pattern × Body)} {v : Value}
    (h : ∃ branch ∈ optBranches, branch.1.Matches v) : ∃ k, FirstBranch optBranches v k := by
  classical
  obtain ⟨⟨p, body⟩, hmem, hmatch⟩ := h
  obtain ⟨i, hi⟩ := List.mem_iff_getElem?.mp hmem
  have hex : ∃ k, ∃ (p : Can.Pattern) (body : Body), optBranches[k]? = some (p, body)
      ∧ p.Matches v := ⟨i, p, body, hi, hmatch⟩
  exact ⟨Nat.find hex, Nat.find_spec hex,
    fun j hj p body hp hm => Nat.find_min hex hj ⟨p, body, hp, hm⟩⟩

/-- What `optimize` promises: each value reaches one leaf, which runs the body of the first
    branch that matches it; each jump has one entry; and each body is placed once. -/
structure CaseSpec (Γ : Universe) (t : Γ.Ty) (optBranches : List (Can.Pattern × Body))
    (node : CaseNode Body) : Prop where
  first : ∀ v, HasType Γ.shape v t → ∀ k, FirstBranch optBranches v k →
    ∃ choice p body, node.decider.eval v = some choice ∧ optBranches[k]? = some (p, body)
      ∧ choice.body node.jumps = some body
  jumps : ∀ k, Choice.Jump k ∈ node.decider.leaves → (node.jumps.map Prod.fst).count k = 1
  once : (node.decider.leaves.filterMap Choice.inlined ++ node.jumps.map Prod.snd).Perm
    (optBranches.map Prod.snd)

/-- The jump list has one entry for each number it names. -/
theorem jumpsOf_nodup (leaves : List Nat) (optBranches : List (Can.Pattern × Body)) :
    ((jumpsOf leaves optBranches).map Prod.fst).Nodup := by
  refine List.Nodup.sublist (List.Sublist.map _ List.filter_sublist) ?_
  rw [indexed_fst]
  exact List.nodup_range

/-- With no label twice, a jump is found under its label. -/
theorem lookup_of_mem {jumps : List (Nat × Body)} (hnodup : (jumps.map Prod.fst).Nodup) {k : Nat}
    {body : Body} (h : (k, body) ∈ jumps) : jumps.lookup k = some body := by
  induction jumps with
  | nil => exact absurd h List.not_mem_nil
  | cons entry rest ih =>
      obtain ⟨j, b⟩ := entry
      rw [List.map_cons, List.nodup_cons] at hnodup
      rcases List.mem_cons.mp h with heq | hmem
      · obtain ⟨rfl, rfl⟩ := Prod.mk.inj heq
        exact List.lookup_cons_self
      · have hne : k ≠ j := by
          rintro rfl
          exact hnodup.1 (List.mem_map.mpr ⟨_, hmem, rfl⟩)
        rw [List.lookup_cons, beq_false_of_ne hne]
        exact ih hnodup.2 hmem

/-- A branch's choice runs its body. -/
theorem choiceOf_body {leaves : List Nat} {optBranches : List (Can.Pattern × Body)} {k : Nat}
    {p : Can.Pattern} {body : Body} (h : optBranches[k]? = some (p, body)) :
    (choiceOf leaves (k, body)).body (jumpsOf leaves optBranches) = some body := by
  rw [choiceOf]
  by_cases honce : once leaves k = true
  · rw [if_pos honce]
    rfl
  · rw [if_neg honce]
    refine lookup_of_mem (jumpsOf_nodup leaves optBranches) (List.mem_filter.mpr ⟨?_, ?_⟩)
    · exact mem_indexed.mpr ⟨p, h⟩
    · rw [Bool.eq_false_iff.mpr honce]
      rfl

/-- What `optimize` makes of typed branches. -/
theorem optimize_spec {Γ : Universe} {t : Γ.Ty} {optBranches : List (Can.Pattern × Body)}
    (hne : optBranches ≠ []) (htyped : ∀ branch ∈ optBranches, branch.1.WellTyped Γ t) :
    ∃ node, optimize optBranches = some node ∧ CaseSpec Γ t optBranches node := by
  -- the rows that are compiled carry the index of their branch
  have hraw : ∀ raw ∈ optBranches.zipIdx.map (fun entry => (entry.1.1, entry.2)),
      ∃ body, optBranches[raw.2]? = some (raw.1, body) := by
    intro raw hraw
    obtain ⟨⟨⟨p, body⟩, k⟩, hmem, rfl⟩ := List.mem_map.mp hraw
    exact ⟨body, List.mk_mem_zipIdx_iff_getElem?.mp hmem⟩
  have hget : ∀ k : Nat, (optBranches.zipIdx.map (fun entry => (entry.1.1, entry.2)))[k]?
      = (optBranches[k]?).map fun (branch : Can.Pattern × Body) => (branch.1, k) := by
    intro k
    rw [List.getElem?_map, List.getElem?_zipIdx, Option.map_map, Nat.zero_add]
    rfl
  have hrawne : (optBranches.zipIdx.map fun entry => (entry.1.1, entry.2)) ≠ [] := by
    intro hnil
    have hlen := congrArg List.length hnil
    rw [List.length_map, List.length_zipIdx] at hlen
    exact hne (List.length_eq_zero_iff.mp hlen)
  obtain ⟨tree, htree, hspec⟩ := DecisionTree.compile_spec (t := t) hrawne
    (by
      intro raw hmem
      obtain ⟨body, hbody⟩ := hraw raw hmem
      exact htyped _ (List.mem_of_getElem? hbody))
  obtain ⟨d, hd, hfollows⟩ := treeToDecider_spec hspec.ok
  -- every leaf is the index of a branch, so the choice put there exists
  have hleaves : ∀ k ∈ d.leaves, k < ((indexed optBranches).map (choiceOf d.leaves)).length := by
    intro k hk
    obtain ⟨b, hb, rfl⟩ := hfollows.leaves k hk
    obtain ⟨raw, hmem, rfl⟩ := List.mem_map.mp hb
    obtain ⟨body, hbody⟩ := hraw raw hmem
    rw [List.length_map, indexed_length]
    exact (List.getElem?_eq_some_iff.mp hbody).1
  obtain ⟨d', hd', hmapM, heval⟩ := insertChoices_spec _ d hleaves
  refine ⟨{ decider := d', jumps := jumpsOf d.leaves optBranches }, ?_, ?_, ?_, choices_once hmapM⟩
  · rw [optimize_eq htree hd, hd']
    rfl
  -- the first pattern that matches is the first row that holds, and the tree goes to it
  · rintro v hv k ⟨⟨p, body, hp, hmatch⟩, hbefore⟩
    have hfirst : DecisionTree.FirstMatch v ((optBranches.zipIdx.map fun entry =>
        (entry.1.1, entry.2)).map DecisionTree.format) k := by
      refine DecisionTree.firstMatch_of_getElem (b := DecisionTree.format (p, k)) (k := k) ?_ ?_ ?_
      · rw [List.getElem?_map, hget, hp]
        rfl
      · exact (DecisionTree.format_answers (htyped _ (List.mem_of_getElem? hp)) hv).2.mpr hmatch
      · intro j hj c hc
        rw [List.getElem?_map, hget, Option.map_map, Option.map_eq_some_iff] at hc
        obtain ⟨⟨q, b⟩, hq, rfl⟩ := hc
        rw [Function.comp_apply,
          (DecisionTree.format_answers (htyped _ (List.mem_of_getElem? hq)) hv).2]
        exact hbefore j hj q b hq
    have hdef : ∀ b ∈ (optBranches.zipIdx.map fun entry =>
        (entry.1.1, entry.2)).map DecisionTree.format, b.Defined v := by
      intro b hb
      obtain ⟨raw, hmem, rfl⟩ := List.mem_map.mp hb
      obtain ⟨body', hbody'⟩ := hraw raw hmem
      exact (DecisionTree.format_answers (htyped _ (List.mem_of_getElem? hbody')) hv).1
    have hleaf := hfollows.eval v k (hspec.eval v hv hdef k hfirst)
    refine ⟨choiceOf d.leaves (k, body), p, body, ?_, hp, choiceOf_body hp⟩
    rw [heval v, hleaf, Option.bind_some]
    show ((indexed optBranches).map (choiceOf d.leaves))[k]? = _
    rw [List.getElem?_map, indexed, List.getElem?_map, List.getElem?_zipIdx, hp, Nat.zero_add]
    rfl
  · intro k hk
    obtain ⟨j, -, hj⟩ := mem_of_mapM hmapM hk
    obtain ⟨p, body, hp, hchoice⟩ := choices_get hj
    rw [choiceOf] at hchoice
    -- a branch that one leaf reaches stands inline, any other one is a jump
    by_cases honce : once d.leaves j = true
    · rw [if_pos honce] at hchoice
      cases hchoice
    · rw [if_neg honce] at hchoice
      obtain rfl := Choice.Jump.inj hchoice
      refine List.count_eq_one_of_mem (jumpsOf_nodup d.leaves optBranches)
        (List.mem_map.mpr ⟨(k, body), List.mem_filter.mpr ⟨mem_indexed.mpr ⟨p, hp⟩, ?_⟩, rfl⟩)
      rw [Bool.eq_false_iff.mpr honce]
      rfl

/-- Case compilation is first-match: on branches whose patterns are exhaustive, every value
    reaches one leaf, through tests and steps that are defined on it, and that leaf runs the
    body of the first branch that matches; each jump has one entry and each body is placed
    once. -/
theorem optimize_firstMatch (Γ : Universe) (t : Γ.Ty) (optBranches : List (Can.Pattern × Body))
    (hne : optBranches ≠ []) (htyped : ∀ branch ∈ optBranches, branch.1.WellTyped Γ t)
    (hexhaustive : ∀ v, HasType Γ.shape v t → ∃ branch ∈ optBranches, branch.1.Matches v) :
    ∃ node, optimize optBranches = some node
      ∧ (∀ v, HasType Γ.shape v t → ∃ k choice p body, FirstBranch optBranches v k
        ∧ node.decider.eval v = some choice ∧ optBranches[k]? = some (p, body)
        ∧ choice.body node.jumps = some body)
      ∧ (∀ k, Choice.Jump k ∈ node.decider.leaves → (node.jumps.map Prod.fst).count k = 1)
      ∧ (node.decider.leaves.filterMap Choice.inlined ++ node.jumps.map Prod.snd).Perm
        (optBranches.map Prod.snd) := by
  obtain ⟨node, hnode, hspec⟩ := optimize_spec hne htyped
  refine ⟨node, hnode, fun v hv => ?_, hspec.jumps, hspec.once⟩
  obtain ⟨k, hk⟩ := firstBranch_exists (hexhaustive v hv)
  obtain ⟨choice, p, body, hchoice, hp, hrun⟩ := hspec.first v hv k hk
  exact ⟨k, choice, p, body, hk, hchoice, hp, hrun⟩

/-- `case s of Line 1 _ -> "a"; Line n [] -> "b"; _ -> "c"`; several leaves run `"c"`. -/
def lines : List (Can.Pattern × String) :=
  [(Sample.line (.PInt 1) .PAnything, "a"), (Sample.line (.PVar "n") (.PList []), "b"),
    (.PAnything, "c")]

theorem lines_typed : ∀ branch ∈ lines, branch.1.WellTyped Sample.shapes .shape := by
  intro branch hbranch
  simp only [lines, List.mem_cons, List.not_mem_nil, or_false] at hbranch
  rcases hbranch with rfl | rfl | rfl
  · exact Sample.line_typed rfl trivial
  · exact Sample.line_typed trivial ⟨.int, rfl, trivial⟩
  · trivial

/-- The compilation of a match on a `Shape`. -/
theorem optimize_firstMatch_lines :
    ∃ node, optimize lines = some node
      ∧ (∀ v, HasType Sample.shapes.shape v .shape → ∃ k choice p body,
        FirstBranch lines v k ∧ node.decider.eval v = some choice
        ∧ lines[k]? = some (p, body) ∧ choice.body node.jumps = some body)
      ∧ (∀ k, Choice.Jump k ∈ node.decider.leaves → (node.jumps.map Prod.fst).count k = 1)
      ∧ (node.decider.leaves.filterMap Choice.inlined ++ node.jumps.map Prod.snd).Perm
        (lines.map Prod.snd) :=
  optimize_firstMatch Sample.shapes .shape lines (List.cons_ne_nil _ _) lines_typed
    fun v _ => ⟨(.PAnything, "c"), by simp [lines], trivial⟩

end CaseDecider

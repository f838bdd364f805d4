import EcoCompiler.DecisionTree

/-! # Deciders

    `Compiler.LocalOpt.Typed.Case`: from a decision tree to the `Case` node of the
    optimized program, where a branch that one leaf names is placed in the tree and any
    other branch is placed in the jump list.

    `none` is a crash. -/

open TypedPath (ContainerHint Path)

namespace CaseDecider

/-! ## Deciders -/

/-- `Decider`; a chain has at least one test and a fan-out at least one edge. -/
inductive Decider (α : Type) where
  | Leaf (value : α)
  | Chain (tests : List (Path × Test)) (success failure : Decider α)
  | FanOut (path : Path) (edges : List (FanTest × Decider α)) (fallback : Decider α)

/-- `Choice`. -/
inductive Choice (Body : Type) where
  | Inline (body : Body)
  | Jump (index : Nat)

mutual

/-- Equality of deciders. -/
def Decider.same : Decider Nat → Decider Nat → Bool
  | .Leaf a, .Leaf b => decide (a = b)
  | .Chain ts s f, .Chain ts' s' f' => decide (ts = ts') && s.same s' && f.same f'
  | .FanOut p es f, .FanOut p' es' f' => decide (p = p') && sameEdges es es' && f.same f'
  | _, _ => false

/-- Equality of the edges of fan-outs. -/
def sameEdges : List (FanTest × Decider Nat) → List (FanTest × Decider Nat) → Bool
  | [], [] => true
  | (t, d) :: es, (t', d') :: es' => decide (t = t') && d.same d' && sameEdges es es'
  | _, _ => false

end

/-! ## From trees to deciders -/

/-- `toChain`, on the deciders of the two trees. -/
def toChain (path : Path) (test : Test) (success failure : Decider Nat) : Decider Nat :=
  match success with
  | .Chain tests success' subFailure =>
      if failure.same subFailure then .Chain ((path, test) :: tests) success' failure
      else .Chain [(path, test)] success failure
  | .Leaf _ => .Chain [(path, test)] success failure
  | .FanOut _ _ _ => .Chain [(path, test)] success failure

/-- `splitLast`. -/
def splitLast {α : Type} (first second : α) (more : List α) : List α × α :=
  match more with
  | [] => ([first], second)
  | third :: rest => (first :: (splitLast second third rest).1, (splitLast second third rest).2)

/-- `toFanEdge`, with the decider of the edge's tree. -/
def toFanEdge (edge : Test × Option (Decider Nat)) : Option (FanTest × Decider Nat) :=
  match toFanTest edge.1, edge.2 with
  | some fanTest, some decider => some (fanTest, decider)
  | _, _ => none

/-- A chain of two deciders that are both there. -/
def chainOf (path : Path) (test : Test) (success failure : Option (Decider Nat)) :
    Option (Decider Nat) :=
  match success, failure with
  | some s, some f => some (toChain path test s f)
  | _, _ => none

/-- A fan-out whose edges are all constructor or literal tests. -/
def fanOutOf (path : Path) (edges : List (Test × Option (Decider Nat)))
    (fallback : Option (Decider Nat)) : Option (Decider Nat) :=
  match edges.mapM toFanEdge, fallback with
  | some es, some f => some (.FanOut path es f)
  | _, _ => none

/-- The cases of `treeToDecider` for a node, with the deciders of its trees. -/
def nodeToDecider (path : Path) (edges : List (Test × Option (Decider Nat)))
    (fallback : Option (Option (Decider Nat))) : Option (Decider Nat) :=
  match edges, fallback with
  | [], _ => none
  | [(_, subTree)], none => subTree
  | [(test, successTree)], some failureTree => chainOf path test successTree failureTree
  | [(test, successTree), (_, failureTree)], none => chainOf path test successTree failureTree
  | edge1 :: edge2 :: edge3 :: moreEdges, none =>
      let split := splitLast edge1 edge2 (edge3 :: moreEdges)
      fanOutOf path split.1 split.2.2
  | edge1 :: edge2 :: moreEdges, some fallback =>
      fanOutOf path (edge1 :: edge2 :: moreEdges) fallback

mutual

/-- `treeToDecider`. -/
def treeToDecider : DecisionTree.DecisionTree → Option (Decider Nat)
  | .Match target => some (.Leaf target)
  | .Decision path edges fallback =>
      nodeToDecider path (edgesToDeciders edges) (fallbackToDecider fallback)

/-- The trees of the edges of a node, converted. -/
def edgesToDeciders :
    List (Test × DecisionTree.DecisionTree) → List (Test × Option (Decider Nat))
  | [] => []
  | (test, tree) :: edges => (test, treeToDecider tree) :: edgesToDeciders edges

/-- The fallback of a node, converted. -/
def fallbackToDecider : Option DecisionTree.DecisionTree → Option (Option (Decider Nat))
  | none => none
  | some tree => some (treeToDecider tree)

end

/-! ## Choices -/

mutual

/-- `countTargetsHelp`. -/
def countTargetsHelp (counts : List Nat) : Decider Nat → List Nat
  | .Leaf target => counts.set target (counts[target]?.getD 0 + 1)
  | .Chain _ success failure => countTargetsHelp (countTargetsHelp counts success) failure
  | .FanOut _ tests fallback => countTargetsEdges (countTargetsHelp counts fallback) tests

/-- The fold over the edges of a fan-out, in `countTargetsHelp`. -/
def countTargetsEdges (counts : List Nat) : List (FanTest × Decider Nat) → List Nat
  | [] => counts
  | (_, sub) :: tests => countTargetsEdges (countTargetsHelp counts sub) tests

end

/-- `countTargets`. -/
def countTargets (numBranches : Nat) (decider : Decider Nat) : List Nat :=
  countTargetsHelp (List.replicate numBranches 0) decider

variable {Body : Type}

/-- `createChoices`. -/
def createChoices (targetCounts : List Nat) (entry : Nat × Body) :
    (Nat × Choice Body) × Option (Nat × Body) :=
  if targetCounts[entry.1]?.getD 0 = 1 then ((entry.1, .Inline entry.2), none)
  else ((entry.1, .Jump entry.1), some entry)

mutual

/-- `insertChoices`. -/
def insertChoices (choiceArray : List (Choice Body)) :
    Decider Nat → Option (Decider (Choice Body))
  | .Leaf target => choiceArray[target]?.map .Leaf
  | .Chain testChain success failure =>
      match insertChoices choiceArray success, insertChoices choiceArray failure with
      | some s, some f => some (.Chain testChain s f)
      | _, _ => none
  | .FanOut path tests fallback =>
      match insertEdges choiceArray tests, insertChoices choiceArray fallback with
      | some ts, some f => some (.FanOut path ts f)
      | _, _ => none

/-- `insertChoices` over the edges of a fan-out. -/
def insertEdges (choiceArray : List (Choice Body)) :
    List (FanTest × Decider Nat) → Option (List (FanTest × Decider (Choice Body)))
  | [] => some []
  | (test, sub) :: tests =>
      match insertChoices choiceArray sub, insertEdges choiceArray tests with
      | some d, some ts => some ((test, d) :: ts)
      | _, _ => none

end

/-- The decider and the jump list of a `Case` node. -/
structure CaseNode (Body : Type) where
  decider : Decider (Choice Body)
  jumps : List (Nat × Body)

/-- `optimize`; the label, the root and the type of the node are passed through. -/
def optimize (optBranches : List (Can.Pattern × Body)) : Option (CaseNode Body) :=
  match DecisionTree.compile (optBranches.zipIdx.map fun entry => (entry.1.1, entry.2)) with
  | none => none
  | some tree =>
      match treeToDecider tree with
      | none => none
      | some decider =>
          let indexedBranches := optBranches.zipIdx.map fun entry => (entry.2, entry.1.2)
          let targetCounts := countTargets indexedBranches.length decider
          let chosen := indexedBranches.map (createChoices targetCounts)
          (insertChoices (chosen.map fun entry => entry.1.2) decider).map fun inserted =>
            { decider := inserted, jumps := chosen.filterMap Prod.snd }

/-! ## Meaning -/

/-- Whether a value passes every test of a chain; a test is made only when the ones
    before it pass. -/
def runTests (v : Value) : List (Path × Test) → Option Bool
  | [] => some true
  | (path, test) :: rest =>
      match (path.get v).bind test.passes with
      | none => none
      | some true => runTests v rest
      | some false => some false

mutual

/-- The leaf a value reaches. -/
def Decider.eval {α : Type} (v : Value) : Decider α → Option α
  | .Leaf value => some value
  | .Chain tests success failure =>
      match runTests v tests with
      | none => none
      | some true => success.eval v
      | some false => failure.eval v
  | .FanOut path edges fallback =>
      match path.get v with
      | none => none
      | some w => evalFan v w edges (fallback.eval v)

/-- The edge whose test the part at the fan-out's path passes. -/
def evalFan {α : Type} (v w : Value) : List (FanTest × Decider α) → Option α → Option α
  | [], fallback => fallback
  | (test, decider) :: edges, fallback =>
      match (fromFanTest test).passes w with
      | none => none
      | some true => decider.eval v
      | some false => evalFan v w edges fallback

end

mutual

/-- The leaves of a decider. -/
def Decider.leaves {α : Type} : Decider α → List α
  | .Leaf value => [value]
  | .Chain _ success failure => success.leaves ++ failure.leaves
  | .FanOut _ edges fallback => fallback.leaves ++ fanLeaves edges

/-- The leaves under the edges of a fan-out. -/
def fanLeaves {α : Type} : List (FanTest × Decider α) → List α
  | [] => []
  | (_, decider) :: edges => decider.leaves ++ fanLeaves edges

end

/-- The body that a choice runs. -/
def Choice.body (jumps : List (Nat × Body)) : Choice Body → Option Body
  | .Inline body => some body
  | .Jump index => jumps.lookup index

end CaseDecider

import EcoCompiler.Graph

/-! # Removing the specializations that no code reaches

    `Compiler.Monomorphize.Prune`: an id is an integer, an Elm array is its list of elements, and
    the search is given fuel, one unit for each step of its stack.  Nodes, types, globals,
    constructor shapes and the LSS tables are type parameters, since a prune looks into none of
    them.

    * `MonoGraph` — a graph whose arrays hold no more than the ids its registry gave out;
    * `markReachable`, `rebuild` — the search, and the graph of what it found;
    * `restrictToSccEdges` — the edges inside a strongly connected component. -/

namespace Prune

open Graph

/-! ## The graph -/

/-- `PortRegistration`. -/
structure PortRegistration where
  name : String
  key : String
  incoming : Bool
  decoderSpecId : Option ℤ
  bytes : Bool
  schema : String
  deriving DecidableEq

/-- `SpecializationRegistry`; a prune empties `mapping` and `countByGlobal` and reads neither. -/
structure Registry (Mapping Counts Global Ty : Type) where
  nextId : ℕ
  mapping : Mapping
  reverseMapping : List (Option (Global × Ty))
  countByGlobal : Counts
  deriving DecidableEq

/-- `MonoGraph`.  The rows of `nodes` (`nodes_le`) and of `reverseMapping` (`reverseMapping_le`)
    are ids that the registry gave out, as both engines build them: `assembleRawGraphFrom` of
    `Subst.Monomorphize` pads the nodes to `nextId`, and those of `assembleRawGraph` of
    `Solver.Monomorphize` are one for each id made. -/
structure MonoGraph (Mapping Counts Global Ty Node Shapes Lss : Type) where
  nodes : List (Option Node)
  main : ℤ
  registry : Registry Mapping Counts Global Ty
  ctorShapes : Shapes
  nextLambdaIndex : ℤ
  callEdges : List (Option (List ℤ))
  specHasEffects : BitSet
  specValueUsed : BitSet
  ports : List PortRegistration
  flagsDecoder : Option ℤ
  flagsSchema : String
  lss : Lss
  nodes_le : nodes.length ≤ registry.nextId
  reverseMapping_le : registry.reverseMapping.length ≤ registry.nextId

/-- `Closer`. -/
structure Closer (Ty Node Shapes : Type) where
  node : Node → Node
  tipe : Ty → Ty
  hasResidual : Ty → Bool
  ctorShapes : Shapes → List (Option Node) → Shapes

/-! ## The search -/

/-- `BitSet.member`, for an integer that may be negative. -/
def member (bitIndex : ℤ) (set : BitSet) : Bool :=
  if bitIndex < 0 then false else BitSet.member bitIndex.toNat set

/-- `BitSet.insert`, for an integer that may be negative. -/
def insert (bitIndex : ℤ) (set : BitSet) : BitSet :=
  if bitIndex < 0 then set else BitSet.insert bitIndex.toNat set

/-- `markReachable`. -/
def markReachable (callEdges : List (Option (List ℤ))) : ℕ → List ℤ → BitSet → Option BitSet
  | _, [], visited => some visited
  | 0, _ :: _, _ => none
  | fuel + 1, specId :: rest, visited =>
    if member specId visited then markReachable callEdges fuel rest visited
    else
      let visited1 := insert specId visited
      let neighbors :=
        match (arrayGet callEdges specId).bind id with
        | none => []
        | some edges => edges
      markReachable callEdges fuel (neighbors ++ rest) visited1

section

variable {Mapping Counts Global Ty Node Shapes Lss : Type} [EmptyCollection Mapping]
  [EmptyCollection Counts]

/-- The ids that `reachableFromMain` starts from. -/
def MonoGraph.roots (record : MonoGraph Mapping Counts Global Ty Node Shapes Lss) : List ℤ :=
  let mainSpecId := record.main
  let portRoots := record.ports.filterMap PortRegistration.decoderSpecId
  let flagsRoots :=
    match record.flagsDecoder with
    | some specId => [specId]
    | none => []
  mainSpecId :: portRoots ++ flagsRoots

/-- `reachableFromMain`. -/
def reachableFromMain (fuel : ℕ) (edges : List (Option (List ℤ)))
    (record : MonoGraph Mapping Counts Global Ty Node Shapes Lss) : Option BitSet :=
  let size := record.registry.nextId
  markReachable edges fuel record.roots (BitSet.fromSize size)

/-! ## The new graph -/

/-- `rebuild`: what is live stays, closed. -/
def rebuild (live : BitSet) (edges : List (Option (List ℤ))) (closer : Closer Ty Node Shapes)
    (record : MonoGraph Mapping Counts Global Ty Node Shapes Lss) :
    MonoGraph Mapping Counts Global Ty Node Shapes Lss :=
  let nodes1 := record.nodes.mapIdx fun specId entry =>
    if BitSet.member specId live then entry.map closer.node else none
  let callEdges1 := edges.mapIdx fun specId entry =>
    if BitSet.member specId live then entry else none
  let oldReg := record.registry
  let reverseMapping1 := oldReg.reverseMapping.mapIdx fun i entry =>
    if BitSet.member i live then
      entry.map fun pair =>
        let (g, mt) := pair
        if closer.hasResidual mt then (g, closer.tipe mt) else pair
    else none
  { nodes := nodes1
    main := record.main
    registry :=
      { nextId := oldReg.nextId
        mapping := ∅
        reverseMapping := reverseMapping1
        countByGlobal := ∅ }
    ctorShapes := closer.ctorShapes record.ctorShapes nodes1
    nextLambdaIndex := record.nextLambdaIndex
    callEdges := callEdges1
    specHasEffects := record.specHasEffects
    specValueUsed := record.specValueUsed
    ports := record.ports
    flagsDecoder := record.flagsDecoder
    flagsSchema := record.flagsSchema
    lss := record.lss
    nodes_le := by
      rw [List.length_mapIdx]
      exact record.nodes_le
    reverseMapping_le := by
      rw [List.length_mapIdx]
      exact record.reverseMapping_le }

/-- `pruneUnreachableWith`. -/
def pruneUnreachableWith (fuel : ℕ) (edges : List (Option (List ℤ)))
    (closer : Closer Ty Node Shapes) (record : MonoGraph Mapping Counts Global Ty Node Shapes Lss) :
    Option (MonoGraph Mapping Counts Global Ty Node Shapes Lss) :=
  (reachableFromMain fuel edges record).map fun live => rebuild live edges closer record

end

/-! ## The edges of the cycles -/

/-- The rows as `restrictToSccEdges` hands them on: the targets in the range of the array. -/
def fwdOf (edges : List (Option (List ℤ))) : List (List ℕ) :=
  let n := edges.length
  edges.map fun entry =>
    ((entry.getD []).filter fun (t : ℤ) => 0 ≤ t ∧ t < n).map Int.toNat

/-- The rows of the edges turned round. -/
def transOf (fwd : List (List ℕ)) : List (List ℕ) :=
  (fwd.foldl
    (fun (r : ℕ × List (List ℕ)) targets =>
      (r.1 + 1, targets.foldl (fun a t => a.set t (r.1 :: a[t]?.getD [])) r.2))
    (0, List.replicate fwd.length [])).2

/-- The vertices with an edge to themselves. -/
def selfLoopsOf (fwd : List (List ℕ)) : BitSet :=
  (fwd.foldl
    (fun (r : ℕ × BitSet) targets =>
      (r.1 + 1, if targets.contains r.1 then BitSet.insert r.1 r.2 else r.2))
    (0, BitSet.emptyWithSize fwd.length)).2

/-- The graph that `restrictToSccEdges` asks for the components of. -/
def intGraphOf (edges : List (Option (List ℤ))) : IntGraph :=
  let fwd := fwdOf edges
  { fwd, trans := transOf fwd, selfLoops := selfLoopsOf fwd, size := edges.length }

/-- The number of each vertex's component. -/
def componentOf (n : ℕ) (sccs : List (SCC ℕ)) : List ℤ :=
  (sccs.foldl
    (fun (r : ℤ × List ℤ) scc =>
      match scc with
      | .acyclicSCC v => (r.1 + 1, r.2.set v r.1)
      | .cyclicSCC v vs => (r.1 + 1, (v :: vs).foldl (fun a u => a.set u r.1) r.2))
    (0, List.replicate n (-1))).2

/-- `restrictToSccEdges`: the edges inside a component. -/
def restrictToSccEdges (fuel : ℕ) (edges : List (Option (List ℤ))) :
    Option (List (Option (List ℤ))) :=
  let n := edges.length
  (stronglyConnCompInt fuel (intGraphOf edges)).map fun sccs =>
    let component := componentOf n sccs
    let compOf : ℤ → ℤ := fun v => (arrayGet component v).getD (-1)
    edges.mapIdx fun src entry =>
      match entry with
      | some targets =>
        let c := compOf src
        some (targets.filter fun t => (0 ≤ t ∧ t < n) ∧ compOf t = c)
      | none => none

/-! ## After inlining -/

section

variable {Mapping Counts Global Ty Node Shapes Lss : Type} [EmptyCollection Mapping]
  [EmptyCollection Counts]

/-- The ids that each node's body refers to, from those of one node. -/
def collectSpecEdges (specEdgesOfNode : Node → List ℤ) (nodes : List (Option Node)) :
    List (Option (List ℤ)) :=
  nodes.map fun entry => entry.map specEdgesOfNode

/-- The closer that closes nothing. -/
def Closer.identity : Closer Ty Node Shapes where
  node := id
  tipe := id
  hasResidual _ := false
  ctorShapes shapes _ := shapes

/-- `pruneAfterInline`. -/
def pruneAfterInline (specEdgesOfNode : Node → List ℤ) (fuel : ℕ)
    (graph : MonoGraph Mapping Counts Global Ty Node Shapes Lss) :
    Option (MonoGraph Mapping Counts Global Ty Node Shapes Lss) := do
  let pruned ←
    pruneUnreachableWith fuel (collectSpecEdges specEdgesOfNode graph.nodes) .identity graph
  let callEdges ← restrictToSccEdges fuel pruned.callEdges
  return { pruned with callEdges }

end

end Prune

import EcoCompiler.BitSet
import EcoCompiler.Components
import EcoCompiler.Dict

/-! # Grouping the nodes of a dependency graph

    `Data.Graph`: vertices are natural numbers, an Elm array is its list of elements, and the
    two searches are given fuel, one unit for each step of a work stack.

    * `buildGraphs` — the three parts of an `IntGraph`;
    * `rpoHelp`, `collectHelp` — the searches, each with its own stack;
    * `stronglyConnCompInt`, `stronglyConnComp` — the two entry points. -/

namespace Graph

/-- `SCC`. -/
inductive SCC (α : Type) where
  | acyclicSCC (v : α)
  | cyclicSCC (v : α) (vs : List α)
  deriving DecidableEq

/-- The nodes of a component. -/
def SCC.vertices {α : Type} : SCC α → List α
  | .acyclicSCC v => [v]
  | .cyclicSCC v vs => v :: vs

/-- `IntGraph`. -/
structure IntGraph where
  fwd : List (List ℕ)
  trans : List (List ℕ)
  selfLoops : BitSet
  size : ℕ

/-- `Maybe.withDefault [] (Array.get v adj)`. -/
def neighbors (adj : List (List ℕ)) (v : ℕ) : List ℕ := adj[v]?.getD []

/-! ## The searches -/

/-- `DfsWork`. -/
abbrev DfsWork := DepthFirst.Work ℕ

/-- `rpoHelp`. -/
def rpoHelp (adj : List (List ℕ)) :
    ℕ → List DfsWork → BitSet → List ℕ → Option (BitSet × List ℕ)
  | _, [], visited, acc => some (visited, acc)
  | 0, _ :: _, _, _ => none
  | fuel + 1, .exit v :: rest, visited, acc => rpoHelp adj fuel rest visited (v :: acc)
  | fuel + 1, .enter v :: rest, visited, acc =>
    if BitSet.member v visited then rpoHelp adj fuel rest visited acc
    else
      let newStack := (neighbors adj v).foldl (fun s n => .enter n :: s) (.exit v :: rest)
      rpoHelp adj fuel newStack (BitSet.insert v visited) acc

/-- `reversePostOrder`: the vertices, those left last first. -/
def reversePostOrder (fuel : ℕ) (adj : List (List ℕ)) (n : ℕ) : Option (List ℕ) :=
  ((List.range n).foldlM
    (fun (r : BitSet × List ℕ) v =>
      if BitSet.member v r.1 then some r else rpoHelp adj fuel [.enter v] r.1 r.2)
    (BitSet.emptyWithSize n, [])).map Prod.snd

/-- `collectHelp`. -/
def collectHelp (adj : List (List ℕ)) :
    ℕ → List ℕ → BitSet → List ℕ → Option (BitSet × List ℕ)
  | _, [], visited, acc => some (visited, acc)
  | 0, _ :: _, _, _ => none
  | fuel + 1, v :: rest, visited, acc =>
    if BitSet.member v visited then collectHelp adj fuel rest visited acc
    else
      let newStack := (neighbors adj v).foldl (fun s n => n :: s) rest
      collectHelp adj fuel newStack (BitSet.insert v visited) (v :: acc)

/-- `collectComponent`: what is reached and not yet in a component. -/
def collectComponent (fuel : ℕ) (adj : List (List ℕ)) (start : ℕ) (visited : BitSet) :
    Option (BitSet × List ℕ) :=
  collectHelp adj fuel ((neighbors adj start).foldl (fun s n => n :: s) [])
    (BitSet.insert start visited) []

/-- The component of `v`, from the other vertices of it. -/
def toSCC (selfLoops : BitSet) (v : ℕ) : List ℕ → SCC ℕ
  | [] => if BitSet.member v selfLoops then .cyclicSCC v [] else .acyclicSCC v
  | first :: rest => .cyclicSCC first (rest ++ [v])

/-- The step of the fold in `stronglyConnCompInt`. -/
def collectNext (fuel : ℕ) (g : IntGraph) (r : BitSet × List (SCC ℕ)) (v : ℕ) :
    Option (BitSet × List (SCC ℕ)) :=
  if BitSet.member v r.1 then some r
  else
    (collectComponent fuel g.fwd v r.1).map fun c => (c.1, toSCC g.selfLoops v c.2 :: r.2)

/-- `stronglyConnCompInt`. -/
def stronglyConnCompInt (fuel : ℕ) (g : IntGraph) : Option (List (SCC ℕ)) := do
  let rpo ← reversePostOrder fuel g.trans g.size
  let r ← rpo.foldlM (collectNext fuel g) (BitSet.emptyWithSize g.size, [])
  return r.2.reverse

/-! ## Graph construction -/

variable {N κ : Type} [LinearOrder κ]

/-- A node, the key that names it, and the keys it depends on. -/
structure Triple (N κ : Type) where
  node : N
  key : κ
  deps : List κ
  deriving DecidableEq

/-- `Array.get`, for an index that may be negative. -/
def arrayGet {α : Type} (arr : List α) (i : ℤ) : Option α := if i < 0 then none else arr[i.toNat]?

/-- `binarySearch`. -/
def binarySearch (arr : List κ) (target : κ) (lo hi : ℤ) : Option ℕ :=
  if hi < lo then none
  else
    let mid := lo + (hi - lo) / 2
    match arrayGet arr mid with
    | none => none
    | some midVal =>
      if target = midVal then some mid.toNat
      else if target < midVal then binarySearch arr target lo (mid - 1)
      else binarySearch arr target (mid + 1) hi
termination_by (hi + 1 - lo).toNat

/-- The record that the fold in `buildGraphs` carries. -/
structure Building where
  idx : ℕ
  fwd : Dict ℕ (List ℕ)
  trans : Dict ℕ (List ℕ)
  loops : BitSet
  loopWord : BitVec 32

/-- The step of that fold. -/
def addVertex (keyToId : κ → Option ℕ) (n : ℕ) (acc : Building) (t : Triple N κ) : Building :=
  let edges := t.deps.filterMap keyToId
  let hasSelfLoop := edges.contains acc.idx
  let newTrans := edges.foldl
    (fun tr target => tr.insert target (acc.idx :: (tr.get target).getD [])) acc.trans
  let bOff := acc.idx % 32
  let wordWithBit := if hasSelfLoop then acc.loopWord ||| (1 : BitVec 32) <<< bOff else acc.loopWord
  -- the bits of a word are written together, those of the last word with the last vertex
  let new := if bOff = 31 ∨ acc.idx + 1 = n
    then (BitSet.setWord (acc.idx / 32) wordWithBit acc.loops, 0)
    else (acc.loops, wordWithBit)
  { idx := acc.idx + 1
    fwd := acc.fwd.insert acc.idx edges
    trans := newTrans
    loops := new.1
    loopWord := new.2 }

/-- `buildGraphs`, as the `IntGraph` that its caller makes of the three parts. -/
def buildGraphs (triples : List (Triple N κ)) (keyToId : κ → Option ℕ) (n : ℕ) : IntGraph :=
  let result := triples.foldl (addVertex keyToId n)
    { idx := 0, fwd := Dict.empty, trans := Dict.empty, loops := BitSet.fromSize n, loopWord := 0 }
  { fwd := (List.range n).map fun i => (result.fwd.get i).getD []
    trans := (List.range n).map fun i => (result.trans.get i).getD []
    selfLoops := result.loops
    size := n }

/-! ## Triples -/

/-- `sccToTriples`. -/
def sccToTriples (triples : List (Triple N κ)) : SCC ℕ → Option (SCC (Triple N κ))
  | .acyclicSCC v => triples[v]?.map SCC.acyclicSCC
  | .cyclicSCC v vs =>
    match (v :: vs).filterMap fun i => triples[i]? with
    | [] => none
    | t :: ts => some (.cyclicSCC t ts)

/-- `List.sortBy` on the keys. -/
def sortByKey (edges : List (Triple N κ)) : List (Triple N κ) :=
  edges.insertionSort fun a b => a.key ≤ b.key

/-- The graph that `stronglyConnCompR` hands on, from the sorted triples. -/
def graphOf (sorted : List (Triple N κ)) : IntGraph :=
  let keys := sorted.map Triple.key
  let n := keys.length
  buildGraphs sorted (fun target => binarySearch keys target 0 ((n : ℤ) - 1)) n

/-- `stronglyConnCompR`. -/
def stronglyConnCompR (fuel : ℕ) (edges0 : List (Triple N κ)) :
    Option (List (SCC (Triple N κ))) :=
  match edges0 with
  | [] => some []
  | _ =>
    let sorted := sortByKey edges0
    (stronglyConnCompInt fuel (graphOf sorted)).map fun sccs => sccs.filterMap (sccToTriples sorted)

/-- A component of nodes, from one of triples. -/
def SCC.nodes : SCC (Triple N κ) → SCC N
  | .acyclicSCC t => .acyclicSCC t.node
  | .cyclicSCC t ts => .cyclicSCC t.node (ts.map Triple.node)

/-- `stronglyConnComp`. -/
def stronglyConnComp (fuel : ℕ) (edges0 : List (Triple N κ)) : Option (List (SCC N)) :=
  (stronglyConnCompR fuel edges0).map fun sccs => sccs.map SCC.nodes

end Graph

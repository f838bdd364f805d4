import EcoCompiler.CanonicalPatterns

/-! # Decision trees

    `Compiler.LocalOpt.Typed.DecisionTree`, with the paths of
    `Compiler.IR.DecisionTree.TypedPath` and the tests of
    `Compiler.IR.DecisionTree.Test`: from the patterns of a `case` to the tests that
    choose its branch.

    `none` is a crash.  The recursion that builds a tree takes fuel; `compile` gives it
    one more than the number of tests in the patterns.

    * `Path.get`, `Test.passes`: a step and a test on a value, where they are defined;
    * `DecisionTree.eval`: the leaf a value reaches. -/

/-! ## Paths -/

namespace TypedPath

/-- `ContainerHint`. -/
inductive ContainerHint where
  | HintList
  | HintTuple2
  | HintTuple3
  | HintCustom (name : String)
  deriving DecidableEq

/-- `Path`. -/
inductive Path where
  | Index (index : Nat) (hint : ContainerHint) (path : Path)
  | Unbox (path : Path)
  | Empty
  deriving DecidableEq

/-- The constructor of the container a step takes a field of. -/
def ContainerHint.ctorName : ContainerHint → String
  | .HintList => consName
  | .HintTuple2 => pairName
  | .HintTuple3 => tripleName
  | .HintCustom name => name

/-- The part of a value at a path; `none` where a step does not apply. -/
def Path.get (v : Value) : Path → Option Value
  | .Empty => some v
  | .Index index hint path =>
      match path.get v with
      | some (.ctor name args) => if name = hint.ctorName then args[index]? else none
      | _ => none
  | .Unbox path =>
      match path.get v with
      | some (.ctor _ [arg]) => some arg
      | _ => none

end TypedPath

open TypedPath (ContainerHint Path)

/-! ## Tests -/

/-- `Test`. -/
inductive Test where
  | IsCtor (home : Can.ModuleName) (name : String) (index numAlts : Nat) (opts : Can.CtorOpts)
  | IsCons
  | IsNil
  | IsInt (int : Int)
  | IsChr (chr : String)
  | IsStr (str : String)
  | IsBool (bool : Bool)
  deriving DecidableEq

/-- `testToComparable`. -/
def testToComparable : Test → String
  | .IsCtor home name index numAlts _ =>
      "C" ++ home.author ++ "/" ++ home.pkg ++ ":" ++ home.moduleName ++ "." ++ name ++ "/"
        ++ index.repr ++ "/" ++ numAlts.repr
  | .IsCons => "cons"
  | .IsNil => "nil"
  | .IsInt n => "I" ++ n.repr
  | .IsChr c => "H" ++ StringLiteral.valueKey c
  | .IsStr s => "S" ++ StringLiteral.valueKey s
  | .IsBool b => if b then "Bt" else "Bf"

/-- Whether a value passes a test; `none` where the test is not about such a value. -/
def Test.passes : Test → Value → Option Bool
  | .IsCtor _ name _ _ _, .ctor name' _ => some (name' == name)
  | .IsCons, .ctor name _ =>
      if name = consName then some true else if name = nilName then some false else none
  | .IsNil, .ctor name _ =>
      if name = nilName then some true else if name = consName then some false else none
  | .IsInt n, .int m => some (m == n)
  | .IsChr text, .chr key => some (key == StringLiteral.valueKey text)
  | .IsStr text, .str key => some (key == StringLiteral.valueKey text)
  | .IsBool bool, .ctor name [] =>
      if name = boolName true then some bool
      else if name = boolName false then some (!bool) else none
  | _, _ => none

/-- `FanTest`. -/
inductive FanTest where
  | FCtor (home : Can.ModuleName) (name : String) (index numAlts : Nat) (opts : Can.CtorOpts)
  | FInt (int : Int)
  | FChr (chr : String)
  | FStr (str : String)
  deriving DecidableEq

/-- `toFanTest`. -/
def toFanTest : Test → Option FanTest
  | .IsCtor home name index numAlts opts => some (.FCtor home name index numAlts opts)
  | .IsInt value => some (.FInt value)
  | .IsChr value => some (.FChr value)
  | .IsStr value => some (.FStr value)
  | .IsCons => none
  | .IsNil => none
  | .IsBool _ => none

/-- `fromFanTest`. -/
def fromFanTest : FanTest → Test
  | .FCtor home name index numAlts opts => .IsCtor home name index numAlts opts
  | .FInt value => .IsInt value
  | .FChr value => .IsChr value
  | .FStr value => .IsStr value

namespace DecisionTree

/-! ## Rows -/

/-- `FlatPattern`. -/
inductive FlatPattern where
  | FAnything
  | FCtor (home : Can.ModuleName) (name : String) (index numAlts : Nat) (opts : Can.CtorOpts)
      (args : List Can.Pattern)
  | FNil
  | FCons (hd tl : Can.Pattern)
  | FInt (int : Int)
  | FChr (chr : String)
  | FStr (str : String)
  | FBool (bool : Bool)

/-- A position and the pattern expected there. -/
abbrev Entry := Path × FlatPattern

/-- `Branch`. -/
structure Branch where
  goal : Nat
  pathPatterns : List Entry

/-! ## Flattening -/

mutual

/-- `flatten`. -/
def flatten (path : Path) (pattern : Can.Pattern) (otherPathPatterns : List Entry) :
    List Entry :=
  match pattern with
  | .PVar _ => (path, .FAnything) :: otherPathPatterns
  | .PAnything => (path, .FAnything) :: otherPathPatterns
  | .PCtor home _ union name index args =>
      if union.numAlts = 1 then
        match args with
        | [arg] => flatten (.Unbox path) arg otherPathPatterns
        | args => flattenAll (.HintCustom name) path 0 args otherPathPatterns
      else (path, .FCtor home name index union.numAlts union.opts args) :: otherPathPatterns
  | .PTuple a b =>
      flatten (.Index 0 .HintTuple2 path) a
        (flatten (.Index 1 .HintTuple2 path) b otherPathPatterns)
  | .PTuple3 a b c =>
      flatten (.Index 0 .HintTuple3 path) a
        (flatten (.Index 1 .HintTuple3 path) b
          (flatten (.Index 2 .HintTuple3 path) c otherPathPatterns))
  | .PUnit => otherPathPatterns
  | .PAlias realPattern _ => flatten path realPattern ((path, .FAnything) :: otherPathPatterns)
  | .PRecord _ => (path, .FAnything) :: otherPathPatterns
  | .PList [] => (path, .FNil) :: otherPathPatterns
  | .PList (hd :: tl) => (path, .FCons hd (.PList tl)) :: otherPathPatterns
  | .PCons hd tl => (path, .FCons hd tl) :: otherPathPatterns
  | .PChr chr => (path, .FChr chr) :: otherPathPatterns
  | .PStr str _ => (path, .FStr str) :: otherPathPatterns
  | .PInt int => (path, .FInt int) :: otherPathPatterns
  | .PBool _ bool => (path, .FBool bool) :: otherPathPatterns

/-- `List.foldr flatten` over `subPositions`, numbered from `index` on. -/
def flattenAll (hint : ContainerHint) (path : Path) (index : Nat) (patterns : List Can.Pattern)
    (otherPathPatterns : List Entry) : List Entry :=
  match patterns with
  | [] => otherPathPatterns
  | pattern :: rest =>
      flatten (.Index index hint path) pattern
        (flattenAll hint path (index + 1) rest otherPathPatterns)

end

/-! ## Tests of a row -/

/-- `needsTests`. -/
def needsTests : FlatPattern → Bool
  | .FAnything => false
  | _ => true

/-- `isChoicePath`. -/
def isChoicePath (entry : Entry) : Option Path :=
  if needsTests entry.2 then some entry.1 else none

/-- `Utils.listLookup`. -/
def listLookup (key : Path) : List Entry → Option FlatPattern
  | [] => none
  | (x, y) :: xys => if key = x then some y else listLookup key xys

/-- The test a flattened pattern makes, if any. -/
def testOf : FlatPattern → Option Test
  | .FAnything => none
  | .FCtor home name index numAlts opts _ => some (.IsCtor home name index numAlts opts)
  | .FNil => some .IsNil
  | .FCons _ _ => some .IsCons
  | .FInt int => some (.IsInt int)
  | .FChr chr => some (.IsChr chr)
  | .FStr str => some (.IsStr str)
  | .FBool bool => some (.IsBool bool)

/-- `testAtPath`. -/
def testAtPath (selectedPath : Path) (branch : Branch) : Option Test :=
  (listLookup selectedPath branch.pathPatterns).bind testOf

/-- `isIrrelevantTo`. -/
def isIrrelevantTo (selectedPath : Path) (branch : Branch) : Bool :=
  match listLookup selectedPath branch.pathPatterns with
  | none => true
  | some pattern => !needsTests pattern

/-- `skipVisited`, on the tests kept and the keys of the tests seen. -/
def skipVisited (test : Test) (curr : List Test × List String) : List Test × List String :=
  if testToComparable test ∈ curr.2 then curr
  else (test :: curr.1, testToComparable test :: curr.2)

/-- `testsAtPath`. -/
def testsAtPath (selectedPath : Path) (branches : List Branch) : Option (List Test) :=
  match ((branches.filterMap (testAtPath selectedPath)).foldr skipVisited ([], [])).1 with
  | [] => none
  | tests => some tests

/-- `isComplete`; the list of tests is not empty. -/
def isComplete : List Test → Bool
  | [] => false
  | firstTest :: otherTests =>
      let count := 1 + otherTests.length
      match firstTest with
      | .IsCtor _ _ _ numAlts _ => numAlts = count
      | .IsCons => count = 2
      | .IsNil => count = 2
      | .IsInt _ => false
      | .IsChr _ => false
      | .IsStr _ => false
      | .IsBool _ => count = 2

/-! ## Edges -/

/-- `Extract`: the entries before the position, its pattern and the entries after. -/
def extract (selectedPath : Path) :
    List Entry → Option (List Entry × FlatPattern × List Entry)
  | [] => none
  | (path, pattern) :: rest =>
      if path = selectedPath then some ([], pattern, rest)
      else
        match extract selectedPath rest with
        | none => none
        | some (start, foundPattern, end_) => some ((path, pattern) :: start, foundPattern, end_)

/-- The parts of a pattern that agrees with a test, or `none`. -/
def agreeingParts (test : Test) (pattern : FlatPattern) :
    Option (ContainerHint × List Can.Pattern) :=
  match test, pattern with
  | .IsCtor _ testName _ _ _, .FCtor _ name _ _ _ args =>
      if name = testName then some (.HintCustom name, args) else none
  | .IsNil, .FNil => some (.HintList, [])
  | .IsCons, .FCons hd tl => some (.HintList, [hd, tl])
  | .IsChr testChr, .FChr chr =>
      if StringLiteral.valueKey chr = StringLiteral.valueKey testChr then some (.HintList, [])
      else none
  | .IsStr testStr, .FStr str =>
      if StringLiteral.valueKey str = StringLiteral.valueKey testStr then some (.HintList, [])
      else none
  | .IsInt testInt, .FInt int => if int = testInt then some (.HintList, []) else none
  | .IsBool testBool, .FBool bool => if bool = testBool then some (.HintList, []) else none
  | _, _ => none

/-- `toRelevantBranch`. -/
def toRelevantBranch (test : Test) (path : Path) (branch : Branch) : Option Branch :=
  match extract path branch.pathPatterns with
  | none => some branch
  | some (_, .FAnything, _) => some branch
  | some (start, pattern, end_) =>
      (agreeingParts test pattern).map fun (hint, parts) =>
        { branch with pathPatterns := start ++ flattenAll hint path 0 parts end_ }

/-- `edgesFor`. -/
def edgesFor (path : Path) (branches : List Branch) (test : Test) :
    Option (Test × Branch × List Branch) :=
  match branches.filterMap (toRelevantBranch test path) with
  | b :: bs => some (test, b, bs)
  | [] => none

/-- `gatherEdges`. -/
def gatherEdges (branches : List Branch) (path : Path) :
    Option (List (Test × Branch × List Branch) × List Branch) :=
  match testsAtPath path branches with
  | none => none
  | some relevantTests =>
      match relevantTests.mapM (edgesFor path branches) with
      | none => none
      | some allEdges =>
          some (allEdges,
            if isComplete relevantTests then [] else branches.filter (isIrrelevantTo path))

/-! ## Picking a path -/

/-- `gatherMinimum`. -/
def gatherMinimum (acc : Nat × Path × List Path) (entry : Path × Nat) : Nat × Path × List Path :=
  if entry.2 = acc.1 then (acc.1, entry.1, acc.2.1 :: acc.2.2)
  else if entry.2 < acc.1 then (entry.2, entry.1, [])
  else acc

/-- `bests`: the first of them, and the others. -/
def bests (head : Path × Nat) (weightedPaths : List (Path × Nat)) : Path × List Path :=
  (weightedPaths.foldl gatherMinimum (head.2, head.1, [])).2

/-- `smallDefaults`. -/
def smallDefaults (branches : List Branch) (path : Path) : Nat :=
  (branches.filter (isIrrelevantTo path)).length

/-- `smallBranchingFactor`. -/
def smallBranchingFactor (branches : List Branch) (path : Path) : Option Nat :=
  (gatherEdges branches path).map fun (edges, fallback) =>
    edges.length + if fallback.isEmpty then 0 else 1

/-- `pickPath`, among `head` and the paths of `tail`. -/
def pickPath (branches : List Branch) (head : Path) (tail : List Path) : Option Path :=
  match bests (head, smallDefaults branches head)
      (tail.map fun path => (path, smallDefaults branches path)) with
  | (path, []) => some path
  | (tiedPath, tiedPaths) =>
      match smallBranchingFactor branches tiedPath,
          tiedPaths.mapM (fun path => (smallBranchingFactor branches path).map (path, ·)) with
      | some weight, some weighted => some (bests (tiedPath, weight) weighted).1
      | _, _ => none

/-! ## Trees -/

/-- `DecisionTree`; a node has at least one edge. -/
inductive DecisionTree where
  | Match (goal : Nat)
  | Decision (path : Path) (edges : List (Test × DecisionTree)) (fallback : Option DecisionTree)

/-- `toDecisionTree`. -/
def toDecisionTree : Nat → Branch → List Branch → Option DecisionTree
  | 0, _, _ => none
  | fuel + 1, first, rest =>
      match first.pathPatterns.filterMap isChoicePath with
      | [] => some (.Match first.goal)
      | firstPath :: firstPaths =>
          match pickPath (first :: rest) firstPath
              (firstPaths ++ (rest.flatMap Branch.pathPatterns).filterMap isChoicePath) with
          | none => none
          | some path =>
              match gatherEdges (first :: rest) path with
              | none => none
              | some (edges, fallback) =>
                  match edges.mapM (fun (test, b, bs) =>
                      (toDecisionTree fuel b bs).map (test, ·)) with
                  | none => none
                  | some decisionEdges =>
                      match fallback with
                      | [] => some (.Decision path decisionEdges none)
                      | f :: fs =>
                          (toDecisionTree fuel f fs).map fun tree =>
                            .Decision path decisionEdges (some tree)

mutual

/-- The number of tests that a pattern can call for. -/
def weight : Can.Pattern → Nat
  | .PAnything => 0
  | .PVar _ => 0
  | .PRecord _ => 0
  | .PAlias p _ => weight p
  | .PUnit => 0
  | .PTuple a b => weight a + weight b
  | .PTuple3 a b c => weight a + weight b + weight c
  | .PList ps => 1 + entriesWeight ps
  | .PCons hd tl => 1 + weight hd + weight tl
  | .PBool _ _ => 1
  | .PChr _ => 1
  | .PStr _ _ => 1
  | .PInt _ => 1
  | .PCtor _ _ _ _ _ ps => 1 + argsWeight ps

/-- The number of tests that the entries of a list pattern can call for. -/
def entriesWeight : List Can.Pattern → Nat
  | [] => 0
  | p :: ps => 1 + weight p + entriesWeight ps

/-- The number of tests that the arguments of a constructor can call for. -/
def argsWeight : List Can.Pattern → Nat
  | [] => 0
  | p :: ps => weight p + argsWeight ps

end

/-- `format`, in `compile`. -/
def format (rawBranch : Can.Pattern × Nat) : Branch :=
  { goal := rawBranch.2, pathPatterns := flatten .Empty rawBranch.1 [] }

/-- `compile`. -/
def compile (rawBranches : List (Can.Pattern × Nat)) : Option DecisionTree :=
  match rawBranches.map format with
  | first :: rest => toDecisionTree ((rawBranches.map fun raw => weight raw.1).sum + 1) first rest
  | [] => none

/-! ## Meaning -/

mutual

/-- The leaf a value reaches: the edges are tried in order, then the fallback. -/
def DecisionTree.eval (v : Value) : DecisionTree → Option Nat
  | .Match goal => some goal
  | .Decision path edges fallback =>
      match path.get v with
      | none => none
      | some w => evalEdges v w edges (evalFallback v fallback)

/-- The first edge whose test the part at the node's path passes. -/
def evalEdges (v w : Value) : List (Test × DecisionTree) → Option Nat → Option Nat
  | [], fallback => fallback
  | (test, tree) :: edges, fallback =>
      match test.passes w with
      | none => none
      | some true => tree.eval v
      | some false => evalEdges v w edges fallback

/-- The fallback of a node, when it has one. -/
def evalFallback (v : Value) : Option DecisionTree → Option Nat
  | none => none
  | some tree => tree.eval v

end

end DecisionTree

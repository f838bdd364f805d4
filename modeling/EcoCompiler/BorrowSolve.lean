import EcoCompiler.Dsu
import EcoCompiler.Lifetime

/-! # The borrow solver

    `Compiler.MonoOpt.Borrow.Solve`, with `Mode` and what it reads of `Constraints`.  A set of
    integers is a `Finset`.

    * `Mode`, `Constraints` — access modes and the constraints of one definition;
    * `fixLifetimes`, `fixLtP`, `fixAlpha`, `fixAccess` — sweeps until nothing changes, as many as
      the budget allows;
    * `solve` — the stages;
    * `alphaOf`, `accessMode`, `ltAOf`, `ltPOf`, `storageOwnedOf`, `reifiedOwned` — the queries. -/

namespace Borrow

open IntArray (get set repeated tabulate)

/-- `Mode`. -/
inductive Mode where
  | Borrowed
  | Owned
  deriving DecidableEq

/-- `lub`: owned where one of the two is. -/
def lub : Mode → Mode → Mode
  | .Owned, _ => .Owned
  | .Borrowed, .Owned => .Owned
  | .Borrowed, .Borrowed => .Borrowed

/-- `ResVar`: a resource variable. -/
abbrev ResVar := ℤ

/-- `Reason`: why a variable is forced owned. -/
inductive Reason where
  | RConstruct
  | RKernel
  | RClosureBoundary
  | RErased
  | RCapture
  deriving DecidableEq

/-- `Get`: a part taken out of a container. -/
structure Get where
  container : ResVar
  out : List (ResVar × ResVar)
  path : Path

/-- `Constraints`, without the fields that `solve` does not read. -/
structure Constraints where
  flows : List (ResVar × ResVar)
  gets : List Get
  storageEq : List (ResVar × ResVar)
  scopes : Dict ResVar Path
  seeds : List (ResVar × Path)
  forcedOwned : List (ResVar × Reason)
  paramSeeds : List (ResVar × ℤ)

/-- `Solved`. -/
structure Solved where
  dsu : Dsu
  storageOwned : List Bool
  access : List Mode
  ltA : List Lifetime
  ltP : List Lifetime
  alpha : List (Finset ℤ)
  nRes : ℕ

/-- `iterBudget`: how many sweeps an iteration may take. -/
def iterBudget (nRes : ℕ) : ℕ := nRes * 2 + 16

/-! ## Accessors -/

/-- `arrGet`. -/
def arrGet (r : ResVar) (arr : List Lifetime) : Lifetime := (get r arr).getD .LEmpty

/-- `arrJoin`. -/
def arrJoin (r : ResVar) (lt : Lifetime) (arr : List Lifetime) : List Lifetime :=
  set r (join (arrGet r arr) lt) arr

/-- `accGet`. -/
def accGet (r : ResVar) (arr : List Mode) : Mode := (get r arr).getD .Borrowed

/-- `arrAlphaGet`. -/
def arrAlphaGet (r : ResVar) (arr : List (Finset ℤ)) : Finset ℤ := (get r arr).getD ∅

/-- `arrAlphaInsert`. -/
def arrAlphaInsert (r : ResVar) (i : ℤ) (arr : List (Finset ℤ)) : List (Finset ℤ) :=
  set r (insert i (arrAlphaGet r arr)) arr

/-- `subsetOf`. -/
def subsetOf (small big : Finset ℤ) : Bool := ∀ x ∈ small, x ∈ big

/-! ## Fixpoints -/

/-- What the four fixpoints have in common: a sweep tells whether it has changed anything. -/
def fix {α : Type} (sweep : List α → List α × Bool) : List α → ℕ → List α
  | arr, 0 => arr
  | arr, budget + 1 =>
    let (arr1, changed) := sweep arr
    if changed then fix sweep arr1 budget else arr1

/-- A sweep of `fixLifetimes`. -/
def sweepLifetimes (flows : List (ResVar × ResVar)) (arr : List Lifetime) : List Lifetime × Bool :=
  flows.foldl
    (fun (acc, ch) (b, u) =>
      let cur := arrGet b acc
      let ltu := arrGet u acc
      if leq ltu cur then (acc, ch) else (set b (join cur ltu) acc, true))
    (arr, false)

/-- `fixLifetimes`. -/
def fixLifetimes (flows : List (ResVar × ResVar)) : List Lifetime → ℕ → List Lifetime :=
  fix (sweepLifetimes flows)

/-- `joinInto`: one edge of a sweep, and whether it changed something. -/
def joinInto (target source : ResVar) (acc : List Lifetime) (ch : Bool) : List Lifetime × Bool :=
  let cur := arrGet target acc
  let src := arrGet source acc
  if leq src cur then (acc, ch) else (set target (join cur src) acc, true)

/-- A sweep of `fixLtP`. -/
def sweepLtP (cs : Constraints) (access : List Mode) (arr : List Lifetime) :
    List Lifetime × Bool :=
  let accCh1 :=
    cs.flows.foldl
      (fun (acc, ch) (b, u) =>
        if accGet u access = .Borrowed then joinInto b u acc ch else (acc, ch))
      (arr, false)
  -- an owned container must live as long as a borrowed value read out of it
  cs.gets.foldl
    (fun accCh get =>
      get.out.foldl
        (fun (acc, ch) (src, dst) =>
          if accGet src access = .Owned ∧ accGet dst access = .Borrowed then
            joinInto src dst acc ch
          else (acc, ch))
        accCh)
    accCh1

/-- `fixLtP`. -/
def fixLtP (cs : Constraints) (access : List Mode) : List Lifetime → ℕ → List Lifetime :=
  fix (sweepLtP cs access)

/-- A sweep of `fixAlpha`. -/
def sweepAlpha (flows : List (ResVar × ResVar)) (arr : List (Finset ℤ)) :
    List (Finset ℤ) × Bool :=
  flows.foldl
    (fun (acc, ch) (b, u) =>
      let bs := arrAlphaGet b acc
      let cur := arrAlphaGet u acc
      if subsetOf bs cur then (acc, ch) else (set u (cur ∪ bs) acc, true))
    (arr, false)

/-- `fixAlpha`. -/
def fixAlpha (flows : List (ResVar × ResVar)) : List (Finset ℤ) → ℕ → List (Finset ℤ) :=
  fix (sweepAlpha flows)

/-- The lifetime of a use does not end before the scope of its binding. -/
def escapes (cs : Constraints) (ltA : List Lifetime) (b u : ResVar) : Bool :=
  let scopeB := (cs.scopes.get b).getD []
  !endsBefore (arrGet u ltA) scopeB

/-- One flow of a sweep of `fixAccess`. -/
def accessStep (cs : Constraints) (ltA : List Lifetime) (accCh : List Mode × Bool)
    (flow : ResVar × ResVar) : List Mode × Bool :=
  let (acc, ch) := accCh
  let (b, u) := flow
  let ab := accGet b acc
  let au := accGet u acc
  let newB := lub ab au
  let (acc2, ch2) := if newB = ab then (acc, ch) else (set b newB acc, true)
  let newU := if escapes cs ltA b u then lub au newB else au
  if newU = au then (acc2, ch2) else (set u newU acc2, true)

/-- A sweep of `fixAccess`. -/
def sweepAccess (cs : Constraints) (ltA : List Lifetime) (arr : List Mode) : List Mode × Bool :=
  cs.flows.foldl (accessStep cs ltA) (arr, false)

/-- `fixAccess`. -/
def fixAccess (cs : Constraints) (ltA : List Lifetime) : List Mode → ℕ → List Mode :=
  fix (sweepAccess cs ltA)

/-! ## Solving -/

section

variable (nRes : ℕ) (allOwnedFlag : Bool) (cs : Constraints)

/-- `dsuA`: the classes of variables that share storage. -/
def dsuA : Dsu := Dsu.unions cs.flows (Dsu.unions cs.storageEq (Dsu.empty (max 1 nRes)))

/-- `ownedClass`: the roots of the classes with a forced member. -/
def ownedClass : List Bool :=
  cs.forcedOwned.foldl (fun arr (r, _) => set (Dsu.findRoot r (dsuA nRes cs)) true arr)
    (repeated (max 1 nRes) false)

/-- `storageOwnedArr`: the variables of those classes. -/
def storageOwnedArr : List Bool :=
  tabulate (max 1 nRes) fun r =>
    (get (Dsu.findRoot r (dsuA nRes cs)) (ownedClass nRes cs)).getD false

/-- `ltASeeded`. -/
def ltASeeded : List Lifetime :=
  cs.seeds.foldl (fun arr (r, p) => arrJoin r (fromPath p) arr) (repeated (max 1 nRes) .LEmpty)

/-- What `alphaFinal` starts from. -/
def alphaSeeded : List (Finset ℤ) :=
  cs.paramSeeds.foldl (fun arr (r, i) => arrAlphaInsert r i arr) (repeated (max 1 nRes) ∅)

/-- `accessInit`. -/
def accessInit : List Mode :=
  tabulate (max 1 nRes) fun r =>
    if allOwnedFlag || (get r (storageOwnedArr nRes cs)).getD false then .Owned else .Borrowed

/-- `accessForced`. -/
def accessForced : List Mode :=
  cs.forcedOwned.foldl (fun arr (r, _) => set r .Owned arr) (accessInit nRes allOwnedFlag cs)

/-- `solve`: the four iterations, one after the other. -/
def solve : Solved :=
  let ltAFinal := fixLifetimes cs.flows (ltASeeded nRes cs) (iterBudget nRes)
  -- carried from binding to use, the opposite way to lifetimes
  let alphaFinal := fixAlpha cs.flows (alphaSeeded nRes cs) (iterBudget nRes)
  let accessFinal :=
    fixAccess cs ltAFinal (accessForced nRes allOwnedFlag cs) (iterBudget nRes)
  let ltPFinal := fixLtP cs accessFinal (ltASeeded nRes cs) (iterBudget nRes)
  { dsu := dsuA nRes cs
    storageOwned := storageOwnedArr nRes cs
    access := accessFinal
    ltA := ltAFinal
    ltP := ltPFinal
    alpha := alphaFinal
    nRes := nRes }

end

/-! ## Queries -/

/-- `accessMode`. -/
def accessMode (r : ResVar) (s : Solved) : Mode := accGet r s.access

/-- `storageOwnedOf`. -/
def storageOwnedOf (r : ResVar) (s : Solved) : Bool :=
  (get (Dsu.findRoot r s.dsu) s.storageOwned).getD false

/-- `reifiedOwned`. -/
def reifiedOwned (r : ResVar) (s : Solved) : Bool :=
  accessMode r s = .Owned || storageOwnedOf r s

/-- `ltAOf`. -/
def ltAOf (r : ResVar) (s : Solved) : Lifetime := arrGet r s.ltA

/-- `ltPOf`. -/
def ltPOf (r : ResVar) (s : Solved) : Lifetime := arrGet r s.ltP

/-- `alphaOf`. -/
def alphaOf (r : ResVar) (s : Solved) : Finset ℤ := arrAlphaGet r s.alpha

end Borrow

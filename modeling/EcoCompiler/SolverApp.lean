import EcoCompiler.SolverAnswers

/-! # Changing an application's dependencies

    `addToApp` and `removeFromApp` solve the dependencies of an application anew and sort the
    solution into the four maps of its outline.

    * `getTransitive` — the packages reached through the constraints that the search read;
    * `addSolver`, `removeSolver` — the searches;
    * `addToApp`, `removeFromApp`. -/

namespace Solver

variable {Name : Type} [LinearOrder Name] {α : Type}

/-- `Outline.AppOutline`: the maps of its dependencies; the other fields stay as they are. -/
structure AppOutline (Name : Type) [LinearOrder Name] where
  depsDirect : Dict Name Version
  depsIndirect : Dict Name Version
  testDirect : Dict Name Version
  testIndirect : Dict Name Version

/-- `SolverResult`. -/
inductive SolverResult (Name : Type) [LinearOrder Name] (α : Type) where
  | SolverOk (a : α)
  | NoSolution
  | NoOfflineSolution
  | SolverErr (problem : Exit Name)

/-- `AppSolution`: every version before the change and after it, and the outline. -/
structure AppSolution (Name : Type) [LinearOrder Name] where
  old : Dict Name Version
  new : Dict Name Version
  outline : AppOutline Name

/-- How a run ends without a result: the search goes on after its fuel, or `getTransitive`
    does, or `Utils.dictFind` crashes on a key that is missing. -/
inductive Stop where
  | searchGoesOn
  | transitiveGoesOn
  | missing
deriving DecidableEq

/-- `noSolution`. -/
def noSolution (connection : Connection) : SolverResult Name α :=
  match connection with
  | .Online => .NoSolution
  | .Offline => .NoOfflineSolution

/-- `solvedVersions`. -/
def solvedVersions (solved : Dict Name (Details Name)) : Dict Name Version :=
  solved.map fun _ details => details.version

/-- `getTransitive`, to a depth of `fuel`. -/
def getTransitive (constraints : Dict (Name ×ₗ ℤ ×ₗ ℤ ×ₗ ℤ) (Constraints Name))
    (solution : Dict Name Version) :
    ℕ → List (Name × Version) → Dict Name Version → Except Stop (Dict Name Version)
  | _, [], visited => .ok visited
  | 0, _ :: _, _ => .error .transitiveGoesOn
  | fuel + 1, (pkg, vsn) :: infos, visited =>
    if visited.member pkg then getTransitive constraints solution fuel infos visited
    else
      match constraints.get (key pkg vsn) with
      | none => .error .missing
      | some ⟨_, newDeps⟩ =>
        let newUnvisited :=
          (solution.filter fun k _ => (newDeps.diff visited).member k).toList
        let newVisited := visited.insert pkg vsn
        match getTransitive constraints solution fuel newUnvisited newVisited with
        | .ok visited1 => getTransitive constraints solution fuel infos visited1
        | .error e => .error e

/-- A depth that `getTransitive` does not come to. -/
def transitiveDepth (solution : Dict Name Version) (unvisited : List (Name × Version)) : ℕ :=
  (solution.toList.length + unvisited.length + 1) ^ 2

/-- The result with the direct dependencies `d` and the direct test dependencies `td`. -/
def rewritten (state : State Name) (allDeps new d td : Dict Name Version) :
    Except Stop (SolverResult Name (AppSolution Name)) :=
  match getTransitive state.cDict new (transitiveDepth new d.toList) d.toList Dict.empty with
  | .error e => .error e
  | .ok reached =>
    let i := reached.diff d
    let ti := new.diff ([d, i, td].foldr Dict.union Dict.empty)
    .ok (.SolverOk ⟨allDeps, new, ⟨d, i, td, ti⟩⟩)

/-- The outcome of a search for the new versions. -/
def appResult (connection : Connection) (result : InnerSolver Name (Option (Dict Name Version)))
    (ok : State Name → Dict Name Version → Except Stop (SolverResult Name (AppSolution Name))) :
    Except Stop (SolverResult Name (AppSolution Name)) :=
  match result with
  | .ISOk _ none => .error .searchGoesOn
  | .ISOk state (some new) => ok state new
  | .ISBack _ => .ok (noSolution connection)
  | .ISErr e => .ok (.SolverErr e)

section

variable (world : World Name) (fuel : ℕ) (locals : List (Name × String)) (connection : Connection)
  (registry : Dict Name KnownVersions)

/-- The `attempt` of `addToApp`. -/
def attempt (pkg : Name) (toConstraint : Version → Constraint) (deps : Dict Name Version) :
    Solver Name (Option (Dict Name Version)) :=
  map (Option.map solvedVersions)
    (tryConstraints world fuel ((deps.map fun _ => toConstraint).insert pkg Constraint.anything))

/-- The `solver` of `addToApp`. -/
def addSolver (pkg : Name) (appData : AppOutline Name) :
    Solver Name (Option (Dict Name Version)) :=
  let allIndirects := appData.depsIndirect.union appData.testIndirect
  let allDirects := appData.depsDirect.union appData.testDirect
  let allDeps := allDirects.union allIndirects
  oneOf (attempt world fuel pkg Constraint.exactly allDeps)
    [ attempt world fuel pkg Constraint.exactly allDirects
    , attempt world fuel pkg Constraint.untilNextMinor allDirects
    , attempt world fuel pkg Constraint.untilNextMajor allDirects
    , attempt world fuel pkg (fun _ => Constraint.anything) allDirects
    ]

/-- `addToApp`. -/
def addToApp (pkg : Name) (appData : AppOutline Name) (forTest : Bool) :
    Except Stop (SolverResult Name (AppSolution Name)) :=
  let allIndirects := appData.depsIndirect.union appData.testIndirect
  let allDirects := appData.depsDirect.union appData.testDirect
  let allDeps := allDirects.union allIndirects
  let solver := addSolver world fuel pkg appData
  appResult connection (solver (initial locals connection registry)) fun state new =>
    let d :=
      if forTest then new.intersect appData.depsDirect
      else new.intersect (appData.depsDirect.insert pkg Version.one)
    let td :=
      if forTest then new.intersect (appData.testDirect.insert pkg Version.one)
      else new.intersect (appData.testDirect.remove pkg)
    rewritten state allDeps new d td

/-- The `solver` of `removeFromApp`. -/
def removeSolver (pkg : Name) (appData : AppOutline Name) :
    Solver Name (Option (Dict Name Version)) :=
  let allDirects := appData.depsDirect.union appData.testDirect
  map (Option.map solvedVersions)
    (tryConstraints world fuel ((allDirects.remove pkg).map fun _ => Constraint.exactly))

/-- `removeFromApp`. -/
def removeFromApp (pkg : Name) (appData : AppOutline Name) :
    Except Stop (SolverResult Name (AppSolution Name)) :=
  let allDirects := appData.depsDirect.union appData.testDirect
  let solver := removeSolver world fuel pkg appData
  appResult connection (solver (initial locals connection registry)) fun state new =>
    let allIndirects := appData.depsIndirect.union appData.testIndirect
    let allDeps := allDirects.union allIndirects
    rewritten state allDeps new (appData.depsDirect.remove pkg) (appData.testDirect.remove pkg)

end

end Solver

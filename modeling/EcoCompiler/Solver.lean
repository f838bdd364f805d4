import EcoCompiler.Dict
import EcoCompiler.ElmConstraint

/-! # The dependency solver

    `Builder.Deps.Solver`: the search for one version of every package involved, in the
    state monad `Solver` whose state carries the constraints read so far.

    A task is its result: what the search writes to disk it has in its state as well, and
    it reads no file twice.  Where the packages are on disk and on the network is a
    `World`. -/

namespace Solver

/-- `Constraints`: the range of Elm versions, then the range of each dependency. -/
structure Constraints (Name : Type) [LinearOrder Name] where
  elm : Constraint
  deps : Dict Name Constraint

/-- `KnownVersions`. -/
structure KnownVersions where
  newest : Version
  previous : List Version

/-- `Connection`. -/
inductive Connection where
  | Online
  | Offline
deriving DecidableEq

/-- `Exit.Solver`. -/
inductive Exit (Name : Type) where
  | SolverBadCacheData (pkg : Name) (vsn : Version)
  | SolverBadLocalOutline (pkg : Name) (path : String) (problem : Option String)
  | SolverBadHttp (pkg : Name) (vsn : Version) (problem : String)
  | SolverBadHttpData (pkg : Name) (vsn : Version) (url : String)

/-- What is on disk and on the network, and the decoders of an `elm.json`. -/
structure World (Name : Type) [LinearOrder Name] where
  package : Name → Version → String
  fileExists : String → Bool
  readUtf8 : String → String
  dirDoesDirectoryExist : String → Bool
  metadata : Name → Version → String → String
  get : String → Except String String
  constraintsDecoder : String → Option (Constraints Name)
  localOutlineError : String → Option String

variable {Name : Type} [LinearOrder Name]

/-- `State`: the locally linked packages of the cache, the connection, the registry and
    the constraints read so far. -/
structure State (Name : Type) [LinearOrder Name] where
  locals : List (Name × String)
  connection : Connection
  registry : Dict Name KnownVersions
  cDict : Dict (Name ×ₗ ℤ ×ₗ ℤ ×ₗ ℤ) (Constraints Name)

/-- `InnerSolver`. -/
inductive InnerSolver (Name : Type) [LinearOrder Name] (α : Type) where
  | ISOk (state : State Name) (value : α)
  | ISBack (state : State Name)
  | ISErr (problem : Exit Name)

end Solver

open Solver

/-- `Solver`. -/
def Solver (Name : Type) [LinearOrder Name] (α : Type) := State Name → InnerSolver Name α

namespace Solver

variable {Name : Type} [LinearOrder Name] {α β : Type}

/-! ## Sequencing -/

/-- `map`. -/
def map (func : α → β) (solver : Solver Name α) : Solver Name β := fun state =>
  match solver state with
  | .ISOk stateA arg => .ISOk stateA (func arg)
  | .ISBack stateA => .ISBack stateA
  | .ISErr e => .ISErr e

/-- `pure`. -/
def pure (a : α) : Solver Name α := fun state => .ISOk state a

/-- `andThen`. -/
def andThen (callback : α → Solver Name β) (solverA : Solver Name α) : Solver Name β :=
  fun state =>
    match solverA state with
    | .ISOk stateA a => callback a stateA
    | .ISBack stateA => .ISBack stateA
    | .ISErr e => .ISErr e

/-- `oneOf`. -/
def oneOf (solver : Solver Name α) : List (Solver Name α) → Solver Name α
  | [] => solver
  | s :: ss => fun state0 =>
    match solver state0 with
    | .ISOk stateA arg => .ISOk stateA arg
    | .ISBack stateA => oneOf s ss stateA
    | .ISErr e => .ISErr e

/-- `backtrack`. -/
def backtrack : Solver Name α := fun state => .ISBack state

/-- `foldM`. -/
def foldM (f : β → α → Solver Name β) (b : β) (list : List α) : Solver Name β :=
  list.foldl (fun solver a => andThen (fun acc => f acc a) solver) (pure b)

/-! ## Reading constraints -/

/-- `Stuff.isLocalPackage`. -/
def isLocalPackage (locals : List (Name × String)) (name : Name) : Bool :=
  locals.any (fun l => l.1 = name)

/-- `Stuff.localPackageSource`. -/
def localPackageSource (locals : List (Name × String)) (name : Name) : Option String :=
  locals.lookup name

/-- The key of a package version. -/
def key (pkg : Name) (vsn : Version) : Name ×ₗ ℤ ×ₗ ℤ ×ₗ ℤ := toLex (pkg, vsn.toComparable)

/-- `ConstraintLoadContext`. -/
structure ConstraintLoadContext (Name : Type) [LinearOrder Name] where
  state : State Name
  pkg : Name
  vsn : Version
  home : String
  path : String
  isLocal : Bool

/-- The state that remembers the constraints of a package version. -/
def State.remember (state : State Name) (pkg : Name) (vsn : Version) (cs : Constraints Name) :
    State Name :=
  { state with cDict := state.cDict.insert (key pkg vsn) cs }

section

variable (world : World Name)

/-- `validateCachedConstraints`, with `checkSrcExists`. -/
def validateCachedConstraints (ctx : ConstraintLoadContext Name) (cs : Constraints Name) :
    InnerSolver Name (Constraints Name) :=
  let newState := ctx.state.remember ctx.pkg ctx.vsn cs
  match ctx.state.connection with
  | .Online => .ISOk newState cs
  | .Offline =>
    if world.dirDoesDirectoryExist (ctx.home ++ "/src") then .ISOk newState cs
    else .ISBack ctx.state

/-- `parseAndValidateCachedConstraints`; a cached file that does not decode is deleted. -/
def parseAndValidateCachedConstraints (ctx : ConstraintLoadContext Name) (bytes : String) :
    InnerSolver Name (Constraints Name) :=
  match world.constraintsDecoder bytes with
  | some cs => validateCachedConstraints world ctx cs
  | none =>
    if ctx.isLocal then
      .ISErr (.SolverBadLocalOutline ctx.pkg ctx.path (world.localOutlineError bytes))
    else .ISErr (.SolverBadCacheData ctx.pkg ctx.vsn)

/-- `loadConstraintsFromCache`. -/
def loadConstraintsFromCache (ctx : ConstraintLoadContext Name) :
    InnerSolver Name (Constraints Name) :=
  parseAndValidateCachedConstraints world ctx (world.readUtf8 ctx.path)

/-- `parseAndCacheConstraints`; the body is written to `ctx.path`. -/
def parseAndCacheConstraints (ctx : ConstraintLoadContext Name) (url body : String) :
    InnerSolver Name (Constraints Name) :=
  match world.constraintsDecoder body with
  | some cs => .ISOk (ctx.state.remember ctx.pkg ctx.vsn cs) cs
  | none => .ISErr (.SolverBadHttpData ctx.pkg ctx.vsn url)

/-- `fetchAndCacheConstraints`, with `handleHttpResult`. -/
def fetchAndCacheConstraints (ctx : ConstraintLoadContext Name) (url : String) :
    InnerSolver Name (Constraints Name) :=
  match world.get url with
  | .error httpProblem => .ISErr (.SolverBadHttp ctx.pkg ctx.vsn httpProblem)
  | .ok body => parseAndCacheConstraints world ctx url body

/-- `loadConstraintsFromNetwork`. -/
def loadConstraintsFromNetwork (ctx : ConstraintLoadContext Name) :
    InnerSolver Name (Constraints Name) :=
  match ctx.state.connection with
  | .Offline => .ISBack ctx.state
  | .Online => fetchAndCacheConstraints world ctx (world.metadata ctx.pkg ctx.vsn "elm.json")

/-- `loadConstraintsFromCacheOrNetwork`. -/
def loadConstraintsFromCacheOrNetwork (ctx : ConstraintLoadContext Name) (outlineExists : Bool) :
    InnerSolver Name (Constraints Name) :=
  if outlineExists then loadConstraintsFromCache world ctx
  else loadConstraintsFromNetwork world ctx

/-- The load of a package version that the state does not remember. -/
def loadConstraints (state : State Name) (pkg : Name) (vsn : Version) :
    InnerSolver Name (Constraints Name) :=
  let localSource := localPackageSource state.locals pkg
  let home :=
    match localSource with
    | some source => source
    | none => world.package pkg vsn
  let path := home ++ "/elm.json"
  loadConstraintsFromCacheOrNetwork world
    { state, pkg, vsn, home, path, isLocal := localSource.isSome } (world.fileExists path)

/-- `getConstraints`. -/
def getConstraints (pkg : Name) (vsn : Version) : Solver Name (Constraints Name) := fun state =>
  match state.cDict.get (key pkg vsn) with
  | some cs => .ISOk state cs
  | none => loadConstraints world state pkg vsn

end

/-! ## Exploring goals -/

/-- `Details`: the version chosen, and the dependency constraints it declares. -/
structure Details (Name : Type) [LinearOrder Name] where
  version : Version
  deps : Dict Name Constraint

/-- `Goals`: the pending packages and the solved ones. -/
structure Goals (Name : Type) [LinearOrder Name] where
  pending : Dict Name Constraint
  solved : Dict Name (Details Name)

/-- `dictMinViewWithKey`. -/
def dictMinViewWithKey (dict : Dict Name α) : Option ((Name × α) × Dict Name α) :=
  match dict.toList with
  | first :: tail => some (first, Dict.fromList tail)
  | [] => none

/-- `getRelevantVersions`. -/
def getRelevantVersions (name : Name) (constraint : Constraint) :
    Solver Name (Version × List Version) := fun state =>
  if isLocalPackage state.locals name then
    match [Version.one].filter constraint.satisfies with
    | [] => .ISBack state
    | v :: vs => .ISOk state (v, vs)
  else
    match state.registry.get name with
    | some known =>
      match (known.newest :: known.previous).filter constraint.satisfies with
      | [] => .ISBack state
      | v :: vs => .ISOk state (v, vs)
    | none => .ISBack state

/-- `addConstraint`. -/
def addConstraint (solved : Dict Name (Details Name)) (unsolved : Dict Name Constraint)
    (named : Name × Constraint) : Solver Name (Dict Name Constraint) :=
  let (name, newConstraint) := named
  match solved.get name with
  | some details =>
    if newConstraint.satisfies details.version then pure unsolved else backtrack
  | none =>
    match unsolved.get name with
    | none => pure (unsolved.insert name newConstraint)
    | some oldConstraint =>
      match oldConstraint.intersect newConstraint with
      | none => backtrack
      | some mergedConstraint =>
        if oldConstraint = mergedConstraint then pure unsolved
        else pure (unsolved.insert name mergedConstraint)

section

variable (world : World Name)

/-- `addVersion`. -/
def addVersion (goals : Goals Name) (name : Name) (version : Version) :
    Solver Name (Goals Name) :=
  andThen
    (fun constraints =>
      if constraints.elm.goodElm then
        map
          (fun newPending =>
            { pending := newPending
              solved := goals.solved.insert name ⟨version, constraints.deps⟩ })
          (foldM (addConstraint goals.solved) goals.pending constraints.deps.toList)
      else backtrack)
    (getConstraints world name version)

/-- `exploreGoals`, to `fuel` choices; `none` is a search that goes on after them. -/
def exploreGoals (fuel : Nat) (goals : Goals Name) :
    Solver Name (Option (Dict Name (Details Name))) :=
  match fuel with
  | 0 => pure none
  | fuel + 1 =>
    match dictMinViewWithKey goals.pending with
    | none => pure (some goals.solved)
    | some ((name, constraint), otherPending) =>
      let goals1 : Goals Name := { goals with pending := otherPending }
      let addVsn := addVersion world goals1 name
      andThen (fun goals2 => exploreGoals fuel goals2)
        (andThen (fun choice => oneOf (addVsn choice.1) (choice.2.map addVsn))
          (getRelevantVersions name constraint))

/-- `try`. -/
def tryConstraints (fuel : Nat) (constraints : Dict Name Constraint) :
    Solver Name (Option (Dict Name (Details Name))) :=
  exploreGoals world fuel ⟨constraints, Dict.empty⟩

end

end Solver

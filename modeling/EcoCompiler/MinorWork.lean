import EcoCompiler.Threads
import EcoCompiler.Tiling

/-! # To-space and the workers' allocation buffers

    `MinorWork.hpp`: addresses are numbers, 0 is the null pointer, and every access to the
    shared top is one step.

    * `chooseMinorWorkers` — the bound that the workers rely on;
    * `Worker.labAllocate` — a call up to its first access to the top;
    * `step` — one access to the top by a call of `tospaceClaim` or `tospaceClaimLab`;
    * `closeLabs` — the end of the copying. -/

namespace MinorWork

open Tiling

/-! ## The choice of workers -/

/-- The `waste` of `chooseMinorWorkers`, for `s` bytes of objects, `n` workers and a LAB size;
    its factors are small enough for a `size_t`. -/
def waste (s n lab : ℕ) : ℕ :=
  let rmax := lab / 64
  (s / (lab - rmax) + n) * rmax + n * lab

/-- `NurserySpace::chooseMinorWorkers`, from the values it reads: 0 for a serial collection. -/
def chooseMinorWorkers (force : Bool) (n s minor_parallel_min_bytes lab capacity : ℕ) : ℕ :=
  if n ≤ 1 ∧ force = false then 0
  else if force = false ∧ s < minor_parallel_min_bytes then 0
  else if capacity < s + waste s n lab then 0
  else n

/-! ## To-space -/

/-- `ToSpace`, without its top: what the workers do not change. -/
structure ToSpace where
  end_ : ℕ
  lab_bytes : ℕ
  retire_max : ℕ
  direct_min : ℕ

/-- `ToSpace::reset`, without its top. -/
def ToSpace.reset (limit lab : ℕ) : ToSpace where
  end_ := limit
  lab_bytes := lab
  retire_max := lab / 64
  direct_min := lab / 4

/-- `Lab`: both null when the worker holds no LAB. -/
structure Lab where
  ptr : ℕ := 0
  end_ : ℕ := 0
  deriving DecidableEq

/-- The bytes left in a LAB. -/
def Lab.room (l : Lab) : ℕ := l.end_ - l.ptr

/-- `LabCounters`. -/
structure LabCounters where
  lab_claims : ℕ := 0
  direct_claims : ℕ := 0
  filler_bytes : ℕ := 0

/-! ## Workers -/

/-- Where a worker stands: between two calls of `labAllocate`; in `tospaceClaim` or
    `tospaceClaimLab` for a size, before its load of the top or with the value it has read; or
    in `tospaceOverflow`. -/
inductive Pc where
  | between
  | claim (size : ℕ) (t : Option ℕ)
  | claimLab (size : ℕ) (t : Option ℕ)
  | overflow

/-- A worker: its LAB and counters, the sizes it has still to allocate, and as history the
    objects it was given and the fillers it made. -/
structure Worker where
  lab : Lab := {}
  c : LabCounters := {}
  pc : Pc := .between
  todo : List ℕ
  objects : List Range := []
  fillers : List Range := []

namespace Worker

/-- `labAllocate` returns `p`. -/
def give (w : Worker) (p size : ℕ) : Worker :=
  { w with objects := ⟨p, size⟩ :: w.objects, pc := .between }

/-- An object is placed in the LAB. -/
def carve (w : Worker) (size : ℕ) : Worker :=
  ({ w with lab := { w.lab with ptr := w.lab.ptr + size } } : Worker).give w.lab.ptr size

/-- An object is to be claimed from to-space itself. -/
def direct (w : Worker) (size : ℕ) : Worker :=
  { w with c := { w.c with direct_claims := w.c.direct_claims + 1 }, pc := .claim size none }

/-- The LAB is given up; what is left of it becomes a filler. -/
def retire (w : Worker) (size : ℕ) : Worker :=
  let rem := w.lab.room
  let w :=
    if 0 < rem then
      { w with
        fillers := ⟨w.lab.ptr, rem⟩ :: w.fillers
        c := { w.c with filler_bytes := w.c.filler_bytes + rem } }
    else w
  { w with lab := {}, pc := .claimLab size none }

/-- `labAllocate`, up to its first access to the top. -/
def labAllocate (ts : ToSpace) (w : Worker) (size : ℕ) : Worker :=
  if ts.direct_min ≤ size then w.direct size
  else if size ≤ w.lab.room then w.carve size
  else if ts.retire_max < w.lab.room then w.direct size
  else w.retire size

/-- One step of a worker: the next call begins, or it accesses the top. A weak CAS may fail
    although the top is the value expected. -/
def step (ts : ToSpace) (weak : Bool) (top : ℕ) (w : Worker) : Option (ℕ × Worker) :=
  match w.pc with
  | .between =>
    match w.todo with
    | [] => none
    | size :: todo => some (top, ({ w with todo := todo } : Worker).labAllocate ts size)
  | .claim size none => some (top, { w with pc := .claim size (some top) })
  | .claim size (some t) =>
    if ts.end_ - t < size then some (top, { w with pc := .overflow })
    else if weak = false ∧ top = t then some (t + size, w.give t size)
    else some (top, { w with pc := .claim size (some top) })
  | .claimLab size none => some (top, { w with pc := .claimLab size (some top) })
  | .claimLab size (some t) =>
    let left := ts.end_ - t
    let take := if left < ts.lab_bytes then left else ts.lab_bytes
    if take < size then some (top, w.direct size)
    else if weak = false ∧ top = t then
      let w := { w with
        lab := { ptr := t, end_ := t + take }
        c := { w.c with lab_claims := w.c.lab_claims + 1 } }
      some (t + take, w.carve size)
    else some (top, { w with pc := .claimLab size (some top) })
  | .overflow => none

end Worker

/-! ## Closing -/

/-- The inner loop of `closeLabs`: the first LAB that ends at the top is given back. -/
def trimFirst (top : ℕ) : List Lab → Option (ℕ × List Lab)
  | [] => none
  | l :: labs =>
    if l.ptr ≠ 0 ∧ l.end_ = top then some (l.ptr, {} :: labs)
    else (trimFirst top labs).map fun r => (r.1, l :: r.2)

/-- The LABs that are held. -/
def held (labs : List Lab) : ℕ := labs.countP fun l => l.ptr ≠ 0

theorem held_trimFirst {top top' : ℕ} {labs labs' : List Lab}
    (h : trimFirst top labs = some (top', labs')) : held labs = held labs' + 1 := by
  induction labs generalizing top' labs' with
  | nil => cases h
  | cons l labs ih =>
    rw [trimFirst] at h
    split at h
    · next hl =>
      obtain ⟨rfl, rfl⟩ := Prod.mk.inj (Option.some.inj h)
      simp [held, hl.1]
    · obtain ⟨r, hr, e⟩ := Option.map_eq_some_iff.mp h
      obtain ⟨rfl, rfl⟩ := Prod.mk.inj e
      have hlen := ih hr
      simp only [held, List.countP_cons] at hlen ⊢
      omega

/-- The first loop of `closeLabs`. -/
def trimLabs (top : ℕ) (labs : List Lab) : ℕ × List Lab :=
  match _h : trimFirst top labs with
  | some (top', labs') => trimLabs top' labs'
  | none => (top, labs)
termination_by held labs
decreasing_by
  have := held_trimFirst _h
  omega

/-- The second loop of `closeLabs`: the tails it turns into fillers. -/
def closeFillers : List Lab → List Range
  | [] => []
  | l :: labs =>
    if l.ptr ≠ 0 ∧ l.ptr < l.end_ then ⟨l.ptr, l.room⟩ :: closeFillers labs
    else closeFillers labs

/-- `closeLabs`: the bytes it returns, the top, and the fillers it makes. -/
def closeLabs (top : ℕ) (labs : List Lab) : ℕ × ℕ × List Range :=
  let r := trimLabs top labs
  let fillers := closeFillers r.2
  ((fillers.map Range.size).sum, r.1, fillers)

/-! ## Runs -/

/-- All workers and the top. -/
abbrev State (n : ℕ) := Threads.Memory (Fin n) ℕ Worker

/-- A step of a worker. -/
structure Event (n : ℕ) where
  worker : Fin n
  weak : Bool

variable {n : ℕ}

/-- The state after an event. -/
def next (ts : ToSpace) (e : Event n) (s : State n) : Option (State n) :=
  (Worker.step ts e.weak s.shared (s.own e.worker)).map fun r => s.set e.worker r.1 r.2

/-- The state before the copying: to-space is empty, and each worker has its objects to
    allocate. -/
def start (base : ℕ) (work : Fin n → List ℕ) : State n where
  shared := base
  own i := { todo := work i }

/-- Every call has returned. -/
def Finished (s : State n) : Prop :=
  ∀ i, (s.own i).todo = [] ∧ match (s.own i).pc with
    | .between => True
    | _ => False

/-- The objects given to the workers so far. -/
def objects (s : State n) : List Range := (List.ofFn fun i => (s.own i).objects).flatten

/-- The fillers the workers have made so far. -/
def fillers (s : State n) : List Range := (List.ofFn fun i => (s.own i).fillers).flatten

/-- The workers' LABs. -/
def labs (s : State n) : List Lab := List.ofFn fun i => (s.own i).lab

end MinorWork

import EcoCompiler.MinorWork

/-! # To-space does not overflow and stays a sequence of objects

    Each worker's objects, fillers and LAB tail are ranges; those of all workers tile
    to-space below the top.

    * `WorkerOk` — what a worker keeps, and `step_ok`: one step keeps it and the tiling;
    * `Space.room` — from it, that the top stays clear of the end;
    * `inv_of_reaches` — in every run;
    * `trimLabs_spec`, `closeFillers_eq` — closing keeps the tiling;
    * `tospace_tiled` — the whole. -/

namespace MinorWork

open Tiling Threads

/-! ## A worker's ranges -/

/-- The unused tail of a LAB. -/
def Lab.tail (l : Lab) : Multiset Range := if l.ptr < l.end_ then {⟨l.ptr, l.room⟩} else 0

theorem tail_null : ({} : Lab).tail = 0 := rfl

/-- A tail tiles what its range would, also when it is empty. -/
theorem tiles_tail (l : Lab) (m : Multiset Range) (a b : ℕ) :
    Tiles (l.tail + m) a b ↔ Tiles (⟨l.ptr, l.room⟩ ::ₘ m) a b := by
  rw [Lab.tail]
  split_ifs with h
  · rw [Multiset.singleton_add]
  · have hroom : l.room = 0 := by
      rw [Lab.room]
      omega
    rw [hroom, tiles_zero, zero_add]

theorem tail_pos {l : Lab} {r : Range} (h : r ∈ l.tail) : 0 < r.size := by
  rw [Lab.tail] at h
  split_ifs at h with hlt
  · rw [Multiset.mem_singleton.mp h, Lab.room]
    show 0 < l.end_ - l.ptr
    omega
  · exact absurd h (Multiset.notMem_zero r)

/-- A tail is as large as the room that is left. -/
theorem tail_sum (l : Lab) : (l.tail.map Range.size).sum = l.room := by
  rw [Lab.tail]
  split_ifs with h
  · simp
  · rw [Lab.room]
    simp
    omega

namespace Worker

/-- The objects a worker was given and the fillers it made. -/
def done (w : Worker) : Multiset Range := Multiset.ofList (w.objects ++ w.fillers)

/-- All ranges a worker has had from to-space. -/
def ranges (w : Worker) : Multiset Range := w.lab.tail + w.done

/-- The bytes of its objects, and of its fillers. -/
def placed (w : Worker) : ℕ := (w.objects.map Range.size).sum

/-- The bytes that a worker has filled. -/
def filled (w : Worker) : ℕ := (w.fillers.map Range.size).sum

/-- A worker's ranges are what it placed, filled and has left. -/
theorem ranges_sum (w : Worker) :
    (w.ranges.map Range.size).sum = w.placed + w.filled + w.lab.room := by
  rw [ranges, Multiset.map_add, Multiset.sum_add, tail_sum, done, Multiset.map_coe,
    Multiset.sum_coe, List.map_append, List.sum_append, placed, filled]
  omega

/-- A range that is given counts as done. -/
theorem done_give (w : Worker) (p size : ℕ) : (w.give p size).done = ⟨p, size⟩ ::ₘ w.done := rfl

/-- So does a filler. -/
theorem done_filler {w w' : Worker} {r : Range} (objects : w'.objects = w.objects)
    (fillers : w'.fillers = r :: w.fillers) : w'.done = r ::ₘ w.done := by
  rw [done, done, objects, fillers, Multiset.cons_coe]
  exact Multiset.coe_eq_coe.mpr List.perm_middle

end Worker

/-- The size a call in progress is for. -/
def Pc.pending : Pc → List ℕ
  | .claim size _ => [size]
  | .claimLab size _ => [size]
  | _ => []

/-- The bytes a call in progress takes from to-space. -/
def Pc.needs (ts : ToSpace) : Pc → ℕ
  | .claim size _ => size
  | .claimLab _ _ => ts.lab_bytes
  | _ => 0

/-- What holds of a call in progress: a value read from the top is not above it, and a worker
    that claims a LAB holds none. -/
def Pc.Ok (ts : ToSpace) (top : ℕ) (lab : Lab) : Pc → Prop
  | .between => True
  | .claim _ t => ∀ v, t = some v → v ≤ top
  | .claimLab size t => (∀ v, t = some v → v ≤ top) ∧ lab = {} ∧ size < ts.direct_min
  | .overflow => False

/-- The bytes placed in the LAB a worker holds; every LAB is claimed whole. -/
def Worker.used (ts : ToSpace) (w : Worker) : ℕ :=
  if w.lab.ptr = 0 then 0 else ts.lab_bytes - w.lab.room

/-- What a worker keeps, with the sizes `work` it was given to allocate. -/
structure WorkerOk (ts : ToSpace) (work : List ℕ) (top : ℕ) (w : Worker) : Prop where
  lab : w.lab = {} ∨ 0 < w.lab.ptr ∧ w.lab.room ≤ ts.lab_bytes
  ends : w.lab.ptr ≤ w.lab.end_
  pc : w.pc.Ok ts top w.lab
  sizes : (w.objects.map Range.size).reverse ++ w.pc.pending ++ w.todo = work
  counted : w.c.filler_bytes = w.filled
  fillers_pos : ∀ r ∈ w.fillers, 0 < r.size
  /-- Fillers are few: a LAB is given up only when most of it is used. -/
  dense : w.filled * (ts.lab_bytes - ts.retire_max) + ts.retire_max * w.used ts
    ≤ ts.retire_max * w.placed
  aligned : 8 ∣ ts.lab_bytes → 8 ∣ w.lab.room ∧ ∀ r ∈ w.fillers, 8 ∣ r.size

/-- The sizes to allocate are those of objects. -/
def Sized (work : List ℕ) : Prop := ∀ z ∈ work, 0 < z ∧ 8 ∣ z

section

variable {ts : ToSpace} {work : List ℕ} {top top' : ℕ} {w w' : Worker}

/-- A sound worker stays sound when the top rises. -/
theorem WorkerOk.mono (h : WorkerOk ts work top w) (le : top ≤ top') :
    WorkerOk ts work top' w := by
  refine ⟨h.lab, h.ends, ?_, h.sizes, h.counted, h.fillers_pos, h.dense, h.aligned⟩
  have hpc := h.pc
  revert hpc
  cases w.pc with
  | between => exact id
  | claim size t => exact fun hpc v hv => le_trans (hpc v hv) le
  | claimLab size t => exact fun hpc => ⟨fun v hv => le_trans (hpc.1 v hv) le, hpc.2⟩
  | overflow => exact id

/-- No range of a worker is empty. -/
theorem WorkerOk.ranges_pos (h : WorkerOk ts work top w) (sized : Sized work) :
    ∀ r ∈ w.ranges, 0 < r.size := by
  intro r hr
  rw [Worker.ranges, Multiset.mem_add, Worker.done, Multiset.mem_coe, List.mem_append] at hr
  rcases hr with hr | hr | hr
  · exact tail_pos hr
  · refine (sized r.size ?_).1
    rw [← h.sizes]
    exact List.mem_append_left _ (List.mem_append_left _
      (List.mem_reverse.mpr (List.mem_map_of_mem hr)))
  · exact h.fillers_pos r hr

/-- A worker places no more than its work. -/
theorem WorkerOk.placed_le (h : WorkerOk ts work top w) :
    w.placed + w.pc.pending.sum ≤ work.sum := by
  rw [← h.sizes, List.sum_append, List.sum_append, List.sum_reverse]
  exact Nat.le_add_right ..

/-- What one step keeps: the worker's own properties, and the tiling of to-space together
    with the other workers' ranges. -/
structure Stepped (ts : ToSpace) (work : List ℕ) (top : ℕ) (w : Worker) (top' : ℕ)
    (w' : Worker) : Prop where
  ok : WorkerOk ts work top' w'
  le : top ≤ top'
  tiles : ∀ others base, base ≤ top → Tiles (w.ranges + others) base top →
    Tiles (w'.ranges + others) base top'

/-- An object goes in the LAB. -/
theorem carve_stepped {size : ℕ} (sized : 0 < size ∧ 8 ∣ size) (fits : size ≤ w.lab.room)
    (lab : 0 < w.lab.ptr ∧ w.lab.room ≤ ts.lab_bytes)
    (sizes : (w.objects.map Range.size).reverse ++ [size] ++ w.todo = work)
    (counted : w.c.filler_bytes = w.filled) (fillers_pos : ∀ r ∈ w.fillers, 0 < r.size)
    (dense : w.filled * (ts.lab_bytes - ts.retire_max) + ts.retire_max * w.used ts
      ≤ ts.retire_max * w.placed)
    (aligned : 8 ∣ ts.lab_bytes → 8 ∣ w.lab.room ∧ ∀ r ∈ w.fillers, 8 ∣ r.size) :
    Stepped ts work top w top (w.carve size) := by
  have hroom : (w.carve size).lab.room = w.lab.room - size := by
    show w.lab.end_ - (w.lab.ptr + size) = w.lab.end_ - w.lab.ptr - size
    omega
  have hptr : (w.carve size).lab.ptr = w.lab.ptr + size := rfl
  have hends : w.lab.ptr + size ≤ w.lab.end_ := by
    rw [Lab.room] at fits
    omega
  refine ⟨⟨Or.inr ⟨by rw [hptr]; omega, by rw [hroom]; omega⟩, hends, trivial, ?_, counted,
    fillers_pos, ?_, fun h8 => ⟨?_, (aligned h8).2⟩⟩, le_rfl, fun others base _ tiles => ?_⟩
  · rw [← sizes]
    simp [Worker.carve, Worker.give, Pc.pending]
  -- the object fills what the LAB has used
  · have hplaced : (w.carve size).placed = w.placed + size := by
      simp [Worker.carve, Worker.give, Worker.placed, Nat.add_comm]
    have hused : (w.carve size).used ts = w.used ts + size := by
      rw [Worker.used, Worker.used, hroom, hptr, if_neg (by omega), if_neg (by omega)]
      omega
    rw [hplaced, hused, mul_add, mul_add, ← add_assoc]
    exact Nat.add_le_add_right dense _
  · rw [hroom]
    exact Nat.dvd_sub (aligned h8).1 sized.2
  -- the tail of the LAB is split into the object and the tail left over
  · have hsplit : w.lab.room = size + (w.carve size).lab.room := by
      rw [hroom]
      omega
    have hafter : (w.carve size).ranges + others
        = (w.carve size).lab.tail + (⟨w.lab.ptr, size⟩ ::ₘ (w.done + others)) := by
      rw [Worker.ranges, add_assoc, ← Multiset.cons_add]
      exact congrArg (fun m => (w.carve size).lab.tail + (m + others)) (Worker.done_give _ _ _)
    rw [Worker.ranges, add_assoc, tiles_tail, hsplit, tiles_split] at tiles
    rw [hafter, tiles_tail, hptr, Multiset.cons_swap]
    exact tiles

/-- What is left of the LAB becomes a filler. -/
theorem retire_stepped {size : ℕ} {work₀ : List ℕ} (h : WorkerOk ts work₀ top w)
    (small : w.lab.room ≤ ts.retire_max)
    (below : size < ts.direct_min) (le : ts.retire_max ≤ ts.lab_bytes)
    (sizes : (w.objects.map Range.size).reverse ++ [size] ++ w.todo = work) :
    Stepped ts work top w top (w.retire size) := by
  -- a filler is written only where the LAB has room left
  by_cases hrem : 0 < w.lab.room
  · have hw : w.retire size = { w with
        fillers := ⟨w.lab.ptr, w.lab.room⟩ :: w.fillers
        c := { w.c with filler_bytes := w.c.filler_bytes + w.lab.room }
        lab := {}, pc := .claimLab size none } := by
      rw [Worker.retire]
      simp only [if_pos hrem]
    have hptr : w.lab.ptr ≠ 0 := by
      rcases h.lab with hnull | hlab
      · rw [hnull] at hrem
        exact absurd hrem (lt_irrefl 0)
      · exact hlab.1.ne'
    have hlab : w.lab.room ≤ ts.lab_bytes := by
      rcases h.lab with hnull | hlab
      · rw [hnull]
        exact Nat.zero_le _
      · exact hlab.2
    have hfilled : (w.retire size).filled = w.filled + w.lab.room := by
      rw [hw]
      simp [Worker.filled, Nat.add_comm]
    have hfillers : (w.retire size).fillers = ⟨w.lab.ptr, w.lab.room⟩ :: w.fillers := by rw [hw]
    refine ⟨⟨Or.inl (by rw [hw]), by rw [hw], ?_, ?_, ?_, ?_, ?_, fun h8 => ⟨?_, ?_⟩⟩, le_rfl,
      fun others base _ tiles => ?_⟩
    · rw [hw]
      exact ⟨(by simp), rfl, below⟩
    · rw [← sizes, hw]
      rfl
    · rw [hfilled, hw]
      exact congrArg (· + w.lab.room) h.counted
    · rw [hfillers]
      intro r hr
      rcases List.mem_cons.mp hr with rfl | hr
      · exact hrem
      · exact h.fillers_pos r hr
    -- `retire_max` bounds the filler, and the used part of the LAB pays for it
    · have hused : w.used ts = ts.lab_bytes - w.lab.room := by rw [Worker.used, if_neg hptr]
      have hnone : (w.retire size).used ts = 0 := by
        rw [hw]
        rfl
      have hplaced : (w.retire size).placed = w.placed := by rw [hw]; rfl
      have dense := h.dense
      have hrest : w.lab.room * (ts.lab_bytes - ts.retire_max)
          ≤ ts.retire_max * (ts.lab_bytes - w.lab.room) := Nat.mul_le_mul small (by omega)
      rw [hused] at dense
      rw [hnone, hplaced, hfilled, add_mul, mul_zero]
      omega
    · rw [hw]
      exact dvd_zero 8
    · rw [hfillers]
      intro r hr
      rcases List.mem_cons.mp hr with rfl | hr
      · exact (h.aligned h8).1
      · exact (h.aligned h8).2 r hr
    -- the filler is the tail of the LAB, so no range changes
    · have hsame : (w.retire size).ranges = w.ranges := by
        have htail : w.lab.tail = {⟨w.lab.ptr, w.lab.room⟩} := by
          rw [Lab.tail, if_pos]
          rw [Lab.room] at hrem
          omega
        have hobjects : (w.retire size).objects = w.objects := by rw [hw]
        have hnull : (w.retire size).lab.tail = 0 := by
          rw [hw]
          rfl
        rw [Worker.ranges, Worker.ranges, Worker.done_filler hobjects hfillers, htail, hnull,
          zero_add, Multiset.singleton_add]
      rw [hsame]
      exact tiles
  · have hroom : w.lab.room = 0 := by omega
    have hw : w.retire size = { w with lab := {}, pc := .claimLab size none } := by
      rw [Worker.retire]
      simp only [if_neg hrem]
    refine ⟨⟨Or.inl (by rw [hw]), by rw [hw], ?_, ?_, ?_, ?_, ?_, fun h8 => ⟨?_, ?_⟩⟩, le_rfl,
      fun others base _ tiles => ?_⟩
    · rw [hw]
      exact ⟨(by simp), rfl, below⟩
    · rw [← sizes, hw]
      rfl
    · rw [hw]
      exact h.counted
    · rw [hw]
      exact h.fillers_pos
    · have hnone : (w.retire size).used ts = 0 := by
        rw [hw]
        rfl
      have hplaced : (w.retire size).placed = w.placed := by rw [hw]; rfl
      have hfilled : (w.retire size).filled = w.filled := by rw [hw]; rfl
      rw [hnone, hplaced, hfilled, mul_zero, add_zero]
      exact le_trans (Nat.le_add_right ..) h.dense
    · rw [hw]
      exact dvd_zero 8
    · rw [hw]
      exact (h.aligned h8).2
    · have hsame : (w.retire size).ranges = w.ranges := by
        have htail : w.lab.tail = 0 := by
          rw [Lab.tail, if_neg]
          rw [Lab.room] at hroom
          omega
        rw [Worker.ranges, Worker.ranges, htail, hw]
        rfl
      rw [hsame]
      exact tiles

/-- A call turns to `tospaceClaim`. -/
theorem direct_stepped {size : ℕ} {work₀ : List ℕ} (h : WorkerOk ts work₀ top w)
    (sizes : (w.objects.map Range.size).reverse ++ [size] ++ w.todo = work) :
    Stepped ts work top w top (w.direct size) :=
  ⟨⟨h.lab, h.ends, (fun _ h => by cases h), sizes, h.counted, h.fillers_pos, h.dense, h.aligned⟩,
    le_rfl, fun _ _ _ tiles => tiles⟩

/-- The load of the top, and a CAS that fails. -/
theorem reload_stepped {pc : Pc} (h : WorkerOk ts work top w) (ok : pc.Ok ts top w.lab)
    (pending : pc.pending = w.pc.pending) : Stepped ts work top w top { w with pc := pc } :=
  ⟨⟨h.lab, h.ends, ok, by rw [pending]; exact h.sizes, h.counted, h.fillers_pos, h.dense,
    h.aligned⟩, le_rfl, fun _ _ _ tiles => tiles⟩

/-- An object is claimed from to-space itself. -/
theorem claim_stepped {size : ℕ} (h : WorkerOk ts work top w) (pending : w.pc.pending = [size]) :
    Stepped ts work top w (top + size) (w.give top size) := by
  have sizes := h.sizes
  rw [pending] at sizes
  have hplaced : (w.give top size).placed = w.placed + size := by
    simp [Worker.give, Worker.placed, Nat.add_comm]
  refine ⟨⟨h.lab, h.ends, trivial, ?_, h.counted, h.fillers_pos, ?_, h.aligned⟩,
    Nat.le_add_right .., fun others base le tiles => ?_⟩
  · rw [← sizes]
    simp [Worker.give, Pc.pending]
  · rw [hplaced, mul_add]
    exact le_trans h.dense (Nat.le_add_right ..)
  · have hranges : (w.give top size).ranges + others = ⟨top, size⟩ ::ₘ (w.ranges + others) := by
      rw [Worker.ranges, Worker.done_give, Multiset.add_cons, Multiset.cons_add]
      rfl
    rw [hranges]
    exact tiles.push le size

/-- A LAB is claimed whole, and the object placed at its start. -/
theorem claimLab_stepped {size : ℕ} (h : WorkerOk ts work top w)
    (pending : w.pc.pending = [size]) (sized : 0 < size ∧ 8 ∣ size) (null : w.lab = {})
    (fits : size ≤ ts.lab_bytes) (pos : 0 < top) :
    Stepped ts work top w (top + ts.lab_bytes)
      (({ w with
          lab := { ptr := top, end_ := top + ts.lab_bytes }
          c := { w.c with lab_claims := w.c.lab_claims + 1 } } : Worker).carve size) := by
  have sizes := h.sizes
  rw [pending] at sizes
  have hroom : (⟨top, top + ts.lab_bytes⟩ : Lab).room = ts.lab_bytes := by
    rw [Lab.room]
    exact Nat.add_sub_cancel_left ..
  have hnone : w.used ts = 0 := by
    rw [Worker.used, null]
    rfl
  have hfresh : Worker.used ts
      ({ w with
          lab := { ptr := top, end_ := top + ts.lab_bytes }
          c := { w.c with lab_claims := w.c.lab_claims + 1 } } : Worker) = 0 := by
    rw [Worker.used, if_neg pos.ne', hroom, Nat.sub_self]
  have stepped := @carve_stepped ts work (top + ts.lab_bytes)
    { w with
        lab := { ptr := top, end_ := top + ts.lab_bytes }
        c := { w.c with lab_claims := w.c.lab_claims + 1 } }
    size sized (by rw [hroom]; exact fits) ⟨pos, by rw [hroom]⟩ sizes h.counted h.fillers_pos
    (by rw [hfresh]; have := h.dense; rwa [hnone] at this)
    (fun h8 => ⟨by rw [hroom]; exact h8, (h.aligned h8).2⟩)
  refine ⟨stepped.ok, Nat.le_add_right .., fun others base le tiles => ?_⟩
  refine stepped.tiles others base (le_trans le (Nat.le_add_right ..)) ?_
  have hbefore : w.ranges = w.done := by
    rw [Worker.ranges, null, tail_null, zero_add]
  rw [Worker.ranges, add_assoc, tiles_tail, hroom]
  rw [hbefore] at tiles
  exact tiles.push le ts.lab_bytes

end

/-- A LAB holds every object that is placed in one, and more than is left when it is given
    up. -/
structure ToSpace.Proper (ts : ToSpace) : Prop where
  retire_le : ts.retire_max ≤ ts.lab_bytes
  direct_le : ts.direct_min ≤ ts.lab_bytes

theorem proper_reset (limit lab : ℕ) : (ToSpace.reset limit lab).Proper :=
  ⟨Nat.div_le_self .., Nat.div_le_self ..⟩

/-- A call begins. -/
theorem labAllocate_stepped {ts : ToSpace} {work work₀ : List ℕ} {top size : ℕ} {w : Worker}
    (proper : ts.Proper) (sized : 0 < size ∧ 8 ∣ size) (h : WorkerOk ts work₀ top w)
    (sizes : (w.objects.map Range.size).reverse ++ [size] ++ w.todo = work) :
    Stepped ts work top w top (w.labAllocate ts size) := by
  rw [Worker.labAllocate]
  by_cases hdirect : ts.direct_min ≤ size
  · rw [if_pos hdirect]
    exact direct_stepped h sizes
  rw [if_neg hdirect]
  by_cases hfits : size ≤ w.lab.room
  · rw [if_pos hfits]
    refine carve_stepped sized hfits ?_ sizes h.counted h.fillers_pos h.dense h.aligned
    rcases h.lab with hnull | hlab
    · rw [hnull] at hfits
      exact absurd (lt_of_lt_of_le sized.1 hfits) (lt_irrefl 0)
    · exact hlab
  rw [if_neg hfits]
  by_cases hkeep : ts.retire_max < w.lab.room
  · rw [if_pos hkeep]
    exact direct_stepped h sizes
  · rw [if_neg hkeep]
    exact retire_stepped h (Nat.le_of_not_lt hkeep) (Nat.lt_of_not_le hdirect) proper.retire_le
      sizes

/-- One step of a worker, when to-space has what the call in progress takes. -/
theorem step_ok {ts : ToSpace} {work : List ℕ} {weak : Bool} {top top' : ℕ} {w w' : Worker}
    (proper : ts.Proper) (sized : Sized work) (h : WorkerOk ts work top w)
    (space : top + w.pc.needs ts ≤ ts.end_) (pos : 0 < top)
    (hstep : Worker.step ts weak top w = some (top', w')) : Stepped ts work top w top' w' := by
  have sizes := h.sizes
  have ok := h.pc
  rw [Worker.step.eq_def] at hstep
  -- one case for each instruction that a worker can stand at
  cases hpc : w.pc with
  | between =>
      simp only [hpc] at hstep
      have none : w.pc.pending = [] := by
        rw [hpc]
        rfl
      rw [none, List.append_nil] at sizes
      cases htodo : w.todo with
      | nil =>
          rw [htodo] at hstep
          cases hstep
      | cons size todo =>
          simp only [htodo, Option.some.injEq, Prod.mk.injEq] at hstep
          obtain ⟨rfl, rfl⟩ := hstep
          rw [htodo, List.append_cons] at sizes
          have hsize := sized size (by rw [← sizes]; simp)
          have h' : WorkerOk ts ((w.objects.map Range.size).reverse ++ todo) top
              { w with todo := todo } :=
            ⟨h.lab, h.ends, ok, by simp [hpc, Pc.pending], h.counted, h.fillers_pos, h.dense,
              h.aligned⟩
          have stepped := labAllocate_stepped proper hsize h' sizes
          rw [hpc] at stepped
          exact ⟨stepped.ok, stepped.le, stepped.tiles⟩
  | claim size t =>
      rw [hpc] at ok sizes space
      cases t with
      | none =>
          simp only [hpc, Option.some.injEq, Prod.mk.injEq] at hstep
          obtain ⟨rfl, rfl⟩ := hstep
          refine reload_stepped h (fun v hv => ?_) (by rw [hpc]; rfl)
          rw [Option.some.inj hv]
      | some t =>
          have ht : t ≤ top := ok t rfl
          -- the top read may be old, but it is below the one now, so the check passes
          have room : ¬ ts.end_ - t < size := by
            rw [Pc.needs] at space
            omega
          simp only [hpc, if_neg room] at hstep
          split at hstep
          -- the compare-and-swap succeeds on the top that was read
          · next hcas =>
            simp only [Option.some.injEq, Prod.mk.injEq] at hstep
            obtain ⟨rfl, rfl⟩ := hstep
            obtain ⟨-, rfl⟩ := hcas
            exact claim_stepped h (by rw [hpc]; rfl)
          · simp only [Option.some.injEq, Prod.mk.injEq] at hstep
            obtain ⟨rfl, rfl⟩ := hstep
            refine reload_stepped h (fun v hv => ?_) (by rw [hpc]; rfl)
            rw [Option.some.inj hv]
  | claimLab size t =>
      rw [hpc] at ok sizes space
      obtain ⟨read, null, below⟩ := ok
      cases t with
      | none =>
          simp only [hpc, Option.some.injEq, Prod.mk.injEq] at hstep
          obtain ⟨rfl, rfl⟩ := hstep
          refine reload_stepped h ⟨fun v hv => ?_, null, below⟩ (by rw [hpc]; rfl)
          rw [Option.some.inj hv]
      | some t =>
          have ht : t ≤ top := read t rfl
          have room : ¬ ts.end_ - t < ts.lab_bytes := by
            rw [Pc.needs] at space
            omega
          -- what is smaller than `direct_min` fits a fresh LAB
          have fits : size ≤ ts.lab_bytes := le_trans below.le proper.direct_le
          have hsize := sized size (by rw [← sizes]; simp [Pc.pending])
          simp only [hpc, if_neg room, if_neg (Nat.not_lt.mpr fits)] at hstep
          split at hstep
          · next hcas =>
            simp only [Option.some.injEq, Prod.mk.injEq] at hstep
            obtain ⟨rfl, rfl⟩ := hstep
            obtain ⟨-, rfl⟩ := hcas
            exact claimLab_stepped h (by rw [hpc]; rfl) hsize null fits pos
          · simp only [Option.some.injEq, Prod.mk.injEq] at hstep
            obtain ⟨rfl, rfl⟩ := hstep
            refine reload_stepped h ⟨fun v hv => ?_, null, below⟩ (by rw [hpc]; rfl)
            rw [Option.some.inj hv]
  | overflow =>
      rw [hpc] at ok
      exact ok.elim

/-! ## All workers -/

/-- What holds between two steps of a run. -/
structure Inv {n : ℕ} (ts : ToSpace) (base : ℕ) (work : Fin n → List ℕ) (s : State n) : Prop where
  workers : ∀ i, WorkerOk ts (work i) s.shared (s.own i)
  le : base ≤ s.shared
  tiles : Tiles (s.total Worker.ranges) base s.shared

/-- What the run is set up with: the LAB size, the sizes to allocate, and the space that
    `chooseMinorWorkers` asks for. -/
structure Space {n : ℕ} (base capacity lab s : ℕ) (work : Fin n → List ℕ) : Prop where
  base_pos : 0 < base
  lab_ge : 64 ≤ lab
  sized : ∀ i, Sized (work i)
  total_le : ∑ i, (work i).sum ≤ s
  fits : s + waste s n lab ≤ capacity

/-- What `chooseMinorWorkers` promises when it chooses a parallel collection. -/
theorem fits_of_choose {force : Bool} {n s least lab capacity : ℕ}
    (h : chooseMinorWorkers force n s least lab capacity ≠ 0) : s + waste s n lab ≤ capacity := by
  rw [chooseMinorWorkers] at h
  by_contra hlt
  refine h ?_
  split_ifs <;> omega

section

variable {n base capacity lab s : ℕ} {work : Fin n → List ℕ} {st : State n}

/-- No range at all is empty. -/
theorem Inv.ranges_pos {ts : ToSpace} (inv : Inv ts base work st) (sized : ∀ i, Sized (work i)) :
    ∀ r ∈ st.total Worker.ranges, 0 < r.size := by
  intro r hr
  rw [Memory.total, Multiset.mem_sum] at hr
  obtain ⟨i, -, hr⟩ := hr
  exact (inv.workers i).ranges_pos (sized i) r hr

/-- The top counts the bytes of all ranges. -/
theorem Inv.top_eq {ts : ToSpace} (inv : Inv ts base work st) (sized : ∀ i, Sized (work i)) :
    st.shared = base + (∑ i, (st.own i).placed + ∑ i, (st.own i).filled
      + ∑ i, (st.own i).lab.room) := by
  have htotal := inv.tiles.total inv.le (inv.ranges_pos sized)
  have hsum : ((st.total Worker.ranges).map Range.size).sum
      = ∑ i, ((st.own i).placed + (st.own i).filled + (st.own i).lab.room) := by
    have hmap := map_sum (Multiset.sumAddMonoidHom.comp (Multiset.mapAddMonoidHom Range.size))
      (fun i => (st.own i).ranges) Finset.univ
    simp only [AddMonoidHom.comp_apply, Multiset.coe_sumAddMonoidHom,
      Multiset.coe_mapAddMonoidHom, Worker.ranges_sum] at hmap
    exact hmap
  rw [hsum, Finset.sum_add_distrib, Finset.sum_add_distrib] at htotal
  exact htotal.symm

/-- The workers' fillers together are no more than the bound allows. -/
theorem Inv.filled_le {ts : ToSpace} {P : ℕ} (inv : Inv ts base work st)
    (lt : ts.retire_max < ts.lab_bytes) (placed : ∑ i, (st.own i).placed ≤ P) :
    ∑ i, (st.own i).filled ≤ (P / (ts.lab_bytes - ts.retire_max) + 1) * ts.retire_max := by
  have hdense : (∑ i, (st.own i).filled) * (ts.lab_bytes - ts.retire_max)
      ≤ ts.retire_max * P := by
    rw [Finset.sum_mul]
    calc ∑ i, (st.own i).filled * (ts.lab_bytes - ts.retire_max)
        ≤ ∑ i, ts.retire_max * (st.own i).placed :=
          Finset.sum_le_sum fun i _ => le_trans (Nat.le_add_right ..) (inv.workers i).dense
      _ = ts.retire_max * ∑ i, (st.own i).placed := (Finset.mul_sum ..).symm
      _ ≤ ts.retire_max * P := Nat.mul_le_mul_left _ placed
  have hpos : 0 < ts.lab_bytes - ts.retire_max := by omega
  have hP : P ≤ (P / (ts.lab_bytes - ts.retire_max) + 1) * (ts.lab_bytes - ts.retire_max) := by
    rw [add_mul, one_mul]
    have hdm := Nat.div_add_mod P (ts.lab_bytes - ts.retire_max)
    have hlt := Nat.mod_lt P hpos
    rw [mul_comm] at hdm
    omega
  refine Nat.le_of_mul_le_mul_right (le_trans hdense ?_) hpos
  calc ts.retire_max * P
      ≤ ts.retire_max * ((P / (ts.lab_bytes - ts.retire_max) + 1)
          * (ts.lab_bytes - ts.retire_max)) := Nat.mul_le_mul_left _ hP
    _ = (P / (ts.lab_bytes - ts.retire_max) + 1) * ts.retire_max
          * (ts.lab_bytes - ts.retire_max) := by ring

/-- A buffer has no more room than a buffer's size. -/
theorem room_le {ts : ToSpace} {work : List ℕ} {top : ℕ} {w : Worker}
    (h : WorkerOk ts work top w) : w.lab.room ≤ ts.lab_bytes := by
  rcases h.lab with hnull | hlab
  · rw [hnull]
    exact Nat.zero_le _
  · exact hlab.2

/-- To-space has what any call in progress takes. -/
theorem Space.room (space : Space base capacity lab s work)
    (inv : Inv (ToSpace.reset (base + capacity) lab) base work st) (i : Fin n) :
    st.shared + (st.own i).pc.needs (ToSpace.reset (base + capacity) lab) ≤ base + capacity := by
  have hn : 1 ≤ n := Nat.succ_le_of_lt (Nat.lt_of_le_of_lt (Nat.zero_le _) i.isLt)
  have hlab := space.lab_ge
  have htop := inv.top_eq space.sized
  have hneeds : ∑ j, (st.own j).placed + (st.own i).pc.pending.sum ≤ s := by
    refine le_trans ?_ space.total_le
    rw [← Finset.sum_erase_add Finset.univ _ (Finset.mem_univ i),
      ← Finset.sum_erase_add Finset.univ (fun j => (work j).sum) (Finset.mem_univ i), add_assoc]
    refine Nat.add_le_add (Finset.sum_le_sum fun j _ => ?_) (inv.workers i).placed_le
    exact le_trans (Nat.le_add_right ..) (inv.workers j).placed_le
  have hfilled := inv.filled_le (P := s) (by show lab / 64 < lab; omega) (by omega)
  have hfilled' : ∑ j, (st.own j).filled ≤ (s / (lab - lab / 64) + n) * (lab / 64) := by
    refine le_trans hfilled (Nat.mul_le_mul_right _ ?_)
    exact Nat.add_le_add_left hn _
  have hfits := space.fits
  rw [waste] at hfits
  -- the LABs of the others, and this worker's own
  have hrooms : ∑ j, (st.own j).lab.room ≤ (n - 1) * lab + (st.own i).lab.room := by
    rw [← Finset.sum_erase_add Finset.univ _ (Finset.mem_univ i)]
    refine Nat.add_le_add_right ?_ _
    refine le_trans (Finset.sum_le_card_nsmul _ _ lab fun j _ => room_le (inv.workers j)) ?_
    rw [Finset.card_erase_of_mem (Finset.mem_univ i), Finset.card_univ, Fintype.card_fin,
      smul_eq_mul]
  have hn1 : (n - 1) * lab + lab = n * lab := by
    rw [← Nat.succ_mul, show (n - 1).succ = n by omega]
  have hroom : (st.own i).lab.room ≤ lab := room_le (inv.workers i)
  have ok := (inv.workers i).pc
  cases hpc : (st.own i).pc with
  | between =>
      show st.shared + 0 ≤ _
      omega
  | claim size t =>
      rw [hpc, Pc.pending, List.sum_singleton] at hneeds
      show st.shared + size ≤ _
      omega
  | claimLab size t =>
      rw [hpc] at ok
      have hnone : (st.own i).lab.room = 0 := by
        rw [ok.2.1]
        rfl
      show st.shared + lab ≤ _
      omega
  | overflow =>
      rw [hpc] at ok
      exact ok.elim

/-- The invariant holds at the start. -/
theorem inv_start (ts : ToSpace) (base : ℕ) (work : Fin n → List ℕ) :
    Inv ts base work (start base work) := by
  refine ⟨fun i =>
    ⟨Or.inl rfl, le_rfl, trivial, rfl, rfl, fun r hr => (List.not_mem_nil hr).elim, ?_,
    fun _ => ⟨dvd_zero 8, fun r hr => (List.not_mem_nil hr).elim⟩⟩, le_rfl, ?_⟩
  · exact (Nat.zero_mul _).le
  · have hnone : (start base work).total Worker.ranges = 0 :=
      Memory.total_eq_zero fun i => rfl
    rw [hnone]
    exact tiles_empty base

/-- In every state of a run. -/
theorem inv_of_reaches (space : Space base capacity lab s work)
    (run : Reaches (next (ToSpace.reset (base + capacity) lab)) (start base work) st) :
    Inv (ToSpace.reset (base + capacity) lab) base work st := by
  refine run.invariant (inv_start _ base work) fun e s₁ s₂ h inv => ?_
  obtain ⟨r, hr, rfl⟩ := Option.map_eq_some_iff.mp h
  have stepped := step_ok (proper_reset _ lab) (space.sized e.worker) (inv.workers e.worker)
    (space.room inv e.worker) (lt_of_lt_of_le space.base_pos inv.le) hr
  obtain ⟨others, hbefore, hafter⟩ := s₁.total_split e.worker Worker.ranges
  refine ⟨Memory.forall_set (p := fun i w => WorkerOk _ (work i) r.1 w) stepped.ok
    fun j _ => (inv.workers j).mono stepped.le, le_trans inv.le stepped.le, ?_⟩
  have tiles := inv.tiles
  rw [hbefore] at tiles
  rw [hafter]
  exact stepped.tiles others base inv.le tiles

end

/-! ## Closing -/

/-- The unused tails of some LABs. -/
def tails (labs : List Lab) : Multiset Range := (labs.map Lab.tail).sum

theorem tails_cons (l : Lab) (labs : List Lab) : tails (l :: labs) = l.tail + tails labs := rfl

theorem mem_tails {labs : List Lab} {r : Range} (h : r ∈ tails labs) :
    ∃ l ∈ labs, r ∈ l.tail := by
  induction labs with
  | nil => exact absurd h (Multiset.notMem_zero r)
  | cons l labs ih =>
      rw [tails_cons, Multiset.mem_add] at h
      rcases h with h | h
      · exact ⟨l, List.mem_cons_self .., h⟩
      · obtain ⟨l', hl', h'⟩ := ih h
        exact ⟨l', List.mem_cons_of_mem _ hl', h'⟩

/-- Trimming takes back the tail that ends at the top. -/
theorem trimFirst_spec {top top' : ℕ} {labs labs' : List Lab}
    (h : trimFirst top labs = some (top', labs')) :
    ∃ l ∈ labs, l.end_ = top ∧ l.ptr = top' ∧ tails labs = l.tail + tails labs' ∧
      ∀ l' ∈ labs', l' = {} ∨ l' ∈ labs := by
  induction labs generalizing labs' with
  | nil => cases h
  | cons l labs ih =>
      rw [trimFirst] at h
      split at h
      · next hl =>
        obtain ⟨rfl, rfl⟩ := Prod.mk.inj (Option.some.inj h)
        refine ⟨l, List.mem_cons_self .., hl.2, rfl, ?_, ?_⟩
        · rw [tails_cons, tails_cons, tail_null, zero_add]
        · intro l' hl'
          rcases List.mem_cons.mp hl' with hl' | hl'
          · exact Or.inl hl'
          · exact Or.inr (List.mem_cons_of_mem _ hl')
      · obtain ⟨r, hr, e⟩ := Option.map_eq_some_iff.mp h
        obtain ⟨rfl, rfl⟩ := Prod.mk.inj e
        obtain ⟨l₀, hl₀, hend, hptr, htails, hmem⟩ := ih hr
        refine ⟨l₀, List.mem_cons_of_mem _ hl₀, hend, hptr, ?_, ?_⟩
        · rw [tails_cons, tails_cons, htails]
          abel
        · intro l' hl'
          rcases List.mem_cons.mp hl' with hl' | hl'
          · exact Or.inr (hl' ▸ List.mem_cons_self ..)
          · exact (hmem l' hl').imp_right (List.mem_cons_of_mem _)

/-- Trimming goes on after a tail was taken back. -/
theorem trimLabs_some {top top' : ℕ} {labs labs' : List Lab}
    (h : trimFirst top labs = some (top', labs')) : trimLabs top labs = trimLabs top' labs' := by
  rw [trimLabs]
  split
  · next h' =>
    rw [h] at h'
    obtain ⟨rfl, rfl⟩ := Prod.mk.inj (Option.some.inj h')
    rfl
  · next h' => exact absurd (h.symm.trans h') (by simp)

/-- It stops when no tail ends at the top. -/
theorem trimLabs_none {top : ℕ} {labs : List Lab} (h : trimFirst top labs = none) :
    trimLabs top labs = (top, labs) := by
  rw [trimLabs]
  split
  · next h' => exact absurd (h.symm.trans h') (by simp)
  · rfl

/-- What holds of the null LAB and of every LAB holds of those left. -/
theorem trimLabs_forall {p : Lab → Prop} (null : p {}) {top : ℕ} {labs : List Lab}
    (h : ∀ l ∈ labs, p l) : ∀ l ∈ (trimLabs top labs).2, p l := by
  induction top, labs using trimLabs.induct with
  | case1 top labs top' labs' hsome ih =>
      rw [trimLabs_some hsome]
      obtain ⟨-, -, -, -, -, hmem⟩ := trimFirst_spec hsome
      refine ih fun l hl => ?_
      rcases hmem l hl with rfl | hl
      · exact null
      · exact h l hl
  | case2 top labs hnone =>
      rw [trimLabs_none hnone]
      exact h

/-- Giving LABs back keeps the tiling. -/
theorem trimLabs_spec {base top : ℕ} {labs : List Lab} {m : Multiset Range}
    (ends : ∀ l ∈ labs, l.ptr ≤ l.end_) (le : base ≤ top)
    (tiles : Tiles (tails labs + m) base top) :
    base ≤ (trimLabs top labs).1 ∧
      Tiles (tails (trimLabs top labs).2 + m) base (trimLabs top labs).1 := by
  induction top, labs using trimLabs.induct with
  | case1 top labs top' labs' hsome ih =>
      obtain ⟨l, hl, hend, hptr, htails, hmem⟩ := trimFirst_spec hsome
      have hstop : l.ptr + l.room = top := by
        rw [Lab.room, hend]
        have := ends l hl
        omega
      rw [htails, add_assoc, tiles_tail, ← hstop] at tiles
      have htop : base ≤ top' := by
        by_cases hroom : l.room = 0
        · omega
        · have := tiles.stop_le (Multiset.mem_cons_self ..) (show 0 < l.room by omega)
          rw [← hptr]
          exact this.1
      rw [trimLabs_some hsome]
      refine ih (fun l' hl' => ?_) htop ?_
      · rcases hmem l' hl' with rfl | hl'
        · exact le_rfl
        · exact ends l' hl'
      · rw [← hptr]
        exact tiles.trim
  | case2 top labs hnone =>
      rw [trimLabs_none hnone]
      exact ⟨le, tiles⟩

/-- Every other tail becomes a filler. -/
theorem closeFillers_eq {labs : List Lab} (null : ∀ l ∈ labs, l = {} ∨ 0 < l.ptr) :
    (closeFillers labs : Multiset Range) = tails labs := by
  induction labs with
  | nil => rfl
  | cons l labs ih =>
      have hrest := ih fun l' hl' => null l' (List.mem_cons_of_mem _ hl')
      rw [closeFillers, tails_cons, Lab.tail]
      by_cases hlt : l.ptr < l.end_
      · have hptr : l.ptr ≠ 0 := by
          rcases null l (List.mem_cons_self ..) with rfl | hpos
          · exact absurd hlt (lt_irrefl 0)
          · exact hpos.ne'
        rw [if_pos ⟨hptr, hlt⟩, if_pos hlt, ← hrest, Multiset.singleton_add, Multiset.cons_coe]
      · rw [if_neg (fun h => hlt h.2), if_neg hlt, zero_add, hrest]

section

variable {n : ℕ}

/-- A list for each worker, one after the other. -/
theorem coe_flatten_ofFn (f : Fin n → List Range) :
    (((List.ofFn f).flatten : List Range) : Multiset Range) = ∑ i, (f i : Multiset Range) := by
  have hflat : ∀ L : List (List Range),
      ((L.flatten : List Range) : Multiset Range)
        = (L.map Multiset.ofList).sum := by
    intro L
    induction L with
    | nil => rfl
    | cons l L ih => rw [List.flatten_cons, ← Multiset.coe_add, ih, List.map_cons, List.sum_cons]
  rw [hflat, List.map_ofFn, List.sum_ofFn]
  rfl

/-- All ranges are the tails, the objects and the fillers. -/
theorem total_ranges (st : State n) :
    st.total Worker.ranges = tails (labs st) + ↑(objects st ++ fillers st) := by
  have htails : tails (labs st) = ∑ i, (st.own i).lab.tail := by
    rw [tails, labs, List.map_ofFn, List.sum_ofFn]
    rfl
  rw [htails, ← Multiset.coe_add, objects, fillers, coe_flatten_ofFn, coe_flatten_ofFn,
    ← Finset.sum_add_distrib, ← Finset.sum_add_distrib, Memory.total]
  refine Finset.sum_congr rfl fun i _ => ?_
  rw [Worker.ranges, Worker.done, Multiset.coe_add]

/-- The fillers are as large as what was filled. -/
theorem fillers_sum (st : State n) :
    ((fillers st).map Range.size).sum = ∑ i, (st.own i).filled := by
  rw [fillers, List.map_flatten, List.sum_flatten, List.map_map, List.map_ofFn, List.sum_ofFn]
  rfl

/-- If what `chooseMinorWorkers` computes fits to-space, then in every run of the workers no
    call reaches `tospaceOverflow` and no two objects overlap; and once every call has
    returned, each worker has the objects it was to allocate, and `closeLabs` leaves to-space
    from its base to the top as the objects and the fillers, one after the other, the fillers
    being as long as it returns together with what the workers have counted. -/
theorem tospace_tiled {base capacity lab s : ℕ} {work : Fin n → List ℕ}
    (space : Space base capacity lab s work) {st : State n}
    (run : Reaches (next (ToSpace.reset (base + capacity) lab)) (start base work) st) :
    (∀ i, (st.own i).pc ≠ .overflow) ∧ (objects st).Pairwise Apart ∧
    (Finished st →
      (∀ i, ((st.own i).objects.map Range.size).reverse = work i) ∧
      let (bytes, top, closed) := closeLabs st.shared (labs st)
      (∃ l, l.Perm (objects st ++ (fillers st ++ closed)) ∧ Walk base l top) ∧
      ((fillers st ++ closed).map Range.size).sum
        = bytes + ∑ i, (st.own i).c.filler_bytes ∧
      (8 ∣ lab → ∀ r ∈ fillers st ++ closed, 8 ∣ r.size)) := by
  -- the invariant tiles to-space from base to top; what follows reads it off
  have inv := inv_of_reaches space run
  have pos := inv.ranges_pos space.sized
  have tiles := inv.tiles
  refine ⟨fun i hover => ?_, ?_, fun finished => ?_⟩
  · have ok := (inv.workers i).pc
    rw [hover] at ok
    exact ok
  · refine tiles.apart inv.le pos ?_
    rw [total_ranges, ← Multiset.coe_add]
    exact le_trans (Multiset.le_add_right _ _) (Multiset.le_add_left _ _)
  have mem_labs : ∀ l ∈ labs st, ∃ i, (st.own i).lab = l := fun l hl => (List.mem_ofFn ..).mp hl
  have ends : ∀ l ∈ labs st, l.ptr ≤ l.end_ := by
    intro l hl
    obtain ⟨i, rfl⟩ := mem_labs l hl
    exact (inv.workers i).ends
  -- trimming gives the last LAB back to the top, and only moves ends
  have null : ∀ l ∈ (trimLabs st.shared (labs st)).2, l = {} ∨ 0 < l.ptr := by
    refine trimLabs_forall (Or.inl rfl) fun l hl => ?_
    obtain ⟨i, rfl⟩ := mem_labs l hl
    exact (inv.workers i).lab.imp_right And.left
  rw [total_ranges] at tiles pos
  obtain ⟨le, closed⟩ := trimLabs_spec ends inv.le tiles
  -- the fillers written at the close are the tails of the LABs
  have hfill := closeFillers_eq null
  have hall : tails (trimLabs st.shared (labs st)).2 + ↑(objects st ++ fillers st)
      = ↑(objects st ++ (fillers st ++ closeFillers (trimLabs st.shared (labs st)).2)) := by
    rw [← hfill, add_comm, Multiset.coe_add, List.append_assoc]
  have closed_pos : ∀ r ∈ tails (trimLabs st.shared (labs st)).2
      + ↑(objects st ++ fillers st), 0 < r.size := by
    intro r hr
    rcases Multiset.mem_add.mp hr with hr | hr
    · obtain ⟨l, -, hr⟩ := mem_tails hr
      exact tail_pos hr
    · exact pos r (Multiset.mem_add.mpr (Or.inr hr))
  refine ⟨fun i => ?_, ?_, ?_, fun h8 r hr => ?_⟩
  · obtain ⟨htodo, hpc⟩ := finished i
    have hnone : (st.own i).pc.pending = [] := by
      revert hpc
      cases (st.own i).pc with
      | between => exact fun _ => rfl
      | _ => exact fun h => h.elim
    have sizes := (inv.workers i).sizes
    rwa [hnone, htodo, List.append_nil, List.append_nil] at sizes
  · obtain ⟨l, hl, walk⟩ := closed.walk le closed_pos
    exact ⟨l, Multiset.coe_eq_coe.mp (hl.trans hall), walk⟩
  · rw [List.map_append, List.sum_append, fillers_sum, Nat.add_comm]
    exact congrArg _ (Finset.sum_congr rfl fun i _ => (inv.workers i).counted.symm)
  · rcases List.mem_append.mp hr with hr | hr
    · obtain ⟨fs, hfs, hr⟩ := List.mem_flatten.mp hr
      obtain ⟨i, rfl⟩ := (List.mem_ofFn ..).mp hfs
      exact ((inv.workers i).aligned h8).2 r hr
    · have hr' : r ∈ tails (trimLabs st.shared (labs st)).2 := by
        rw [← hfill]
        exact hr
      obtain ⟨l, hl, hr'⟩ := mem_tails hr'
      have haligned : 8 ∣ l.room := by
        refine trimLabs_forall (p := fun l => 8 ∣ l.room) (dvd_zero 8) (fun l hl => ?_) l hl
        obtain ⟨i, rfl⟩ := mem_labs l hl
        exact ((inv.workers i).aligned h8).1
      rw [Lab.tail] at hr'
      split_ifs at hr'
      · rw [Multiset.mem_singleton.mp hr']
        exact haligned
      · exact absurd hr' (Multiset.notMem_zero r)

/-- Two workers, the second beaten by the first in its race for a LAB. -/
theorem tospace_tiled_race :
    ∃ st : State 2, Reaches (next (ToSpace.reset (8 + 160) 64)) (start 8 ![[8], [8, 8]]) st ∧
      objects st = [⟨8, 8⟩, ⟨80, 8⟩, ⟨72, 8⟩] ∧ (objects st).Pairwise Apart := by
  have hrun : (runs (next (ToSpace.reset (8 + 160) 64))
      [⟨0, false⟩, ⟨1, false⟩, ⟨0, false⟩, ⟨1, false⟩, ⟨0, false⟩, ⟨1, false⟩, ⟨1, false⟩,
        ⟨1, false⟩] (start 8 ![[8], [8, 8]])).map objects
      = some [⟨8, 8⟩, ⟨80, 8⟩, ⟨72, 8⟩] := by decide
  obtain ⟨st, hst, hobjects⟩ := Option.map_eq_some_iff.mp hrun
  have run := reaches_of_runs hst
  exact ⟨st, run, hobjects, (tospace_tiled (s := 24)
    ⟨by decide, by decide, by unfold Sized; decide, by decide, by decide⟩ run).2.1⟩

end

end MinorWork

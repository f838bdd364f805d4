import EcoCompiler.FreeLedger
import EcoCompiler.Threads

/-! # Deferred decommit and commit-ahead

    `PageWork.cpp`: addresses are numbers, 0 is the null pointer, and the statistics are left
    out but for `pending_bytes`.  Helpers make progress whenever the caller is about to look
    at a job, and between two calls; which job moves is given from outside.

    * `PageJob`, `helperStep` — a job slot, and one step of the helper that runs its job;
    * `reap`, `awaitSlot`, `takeSlot` — how the caller collects jobs;
    * `onRelease`, `onReuse`, `onFreshBump`, `syncPoint`, `drainAll` — the calls;
    * `next` — a call that keeps the caller's obligations, or a step of a helper. -/

namespace PageWork

open Tiling FreeLedger

/-! ## State -/

/-- How many jobs can be posted at a time. -/
abbrev kJobSlots : ℕ := 8

/-- 2 MiB, the granule of a window. -/
def kWindowGranule : ℕ := 2 * 2 ^ 20

/-- `PageWorkConfig`. -/
structure PageWorkConfig where
  decommit : Bool
  delay : UInt32
  pending_cap : ℕ
  delay_majors : UInt32
  ahead_bytes : ℕ

/-- `Kind`: what a job does with its pages. -/
inductive Kind where
  | none
  | discard
  | populate
  deriving DecidableEq

/-- The state of a helper job; a running discard has done that many of its extents. -/
inductive JobState where
  | idle
  | posted
  | running (count : ℕ)
  | done
  deriving DecidableEq

/-- `PageJob`. -/
structure PageJob where
  state : JobState := .idle
  kind : Kind := .none
  extents : List Range := []
  lo : ℕ := 0
  hi : ℕ := 0
  seq : ℕ := 0

/-- `Pending`: an extent that waits to be discarded. -/
structure Pending where
  size : ℕ
  epoch : UInt64
  major_epoch : UInt64
  seq : ℕ

/-- `OrderEntry`. -/
structure OrderEntry where
  p : ℕ
  seq : ℕ
  deriving DecidableEq

/-- `Posted`: an extent that a job slot holds. -/
structure Posted where
  size : ℕ
  slot : Fin kJobSlots
  deriving DecidableEq

/-- What a reused extent's pages may hold. -/
inductive Reuse where
  | cancelled
  | neverDiscarded
  | afterDiscard
  deriving DecidableEq

/-- What happens to memory: an extent is released, reused or discarded, or a range is
    committed. -/
inductive Event where
  | released (r : Range)
  | reused (r : Range) (res : Reuse)
  | discarded (r : Range)
  | committed (r : Range)
  deriving DecidableEq

/-- A `PageWork`; with it the moves that the helpers will make before each look at a job, and
    as history the events so far, newest first. -/
structure State where
  cfg : PageWorkConfig
  populate_supported : Bool
  slots : Fin kJobSlots → PageJob := fun _ => {}
  next_seq : ℕ := 1
  epoch : UInt64 := 0
  major_epoch : UInt64 := 0
  pending : List (ℕ × Pending) := []
  pending_order : List OrderEntry := []
  next_release_seq : ℕ := 1
  posted_discard : ℕ → Option Posted := fun _ => none
  window_end : ℕ := 0
  pending_bytes : ℕ := 0
  moves : List (List (Fin kJobSlots)) := []
  history : List Event := []

namespace State

/-- An event is added to the history. -/
def record (w : State) (e : Event) : State := { w with history := e :: w.history }

@[simp] theorem record_cfg (w : State) (e : Event) : (w.record e).cfg = w.cfg := rfl

@[simp] theorem record_posted_discard (w : State) (e : Event) :
    (w.record e).posted_discard = w.posted_discard := rfl

@[simp] theorem record_pending (w : State) (e : Event) : (w.record e).pending = w.pending := rfl

@[simp] theorem record_pending_order (w : State) (e : Event) :
    (w.record e).pending_order = w.pending_order := rfl

@[simp] theorem record_window_end (w : State) (e : Event) :
    (w.record e).window_end = w.window_end := rfl

/-- One slot is changed. -/
def setSlot (w : State) (i : Fin kJobSlots) (s : PageJob) : State :=
  { w with slots := Function.update w.slots i s }

/-- `pending_.find`. -/
def findPending (w : State) (p : ℕ) : Option Pending := w.pending.lookup p

/-- `pending_.erase`, with the bytes. -/
def erasePending (w : State) (p size : ℕ) : State :=
  { w with
    pending := w.pending.filter fun q => q.1 ≠ p
    pending_bytes := w.pending_bytes - size }

end State

/-! ## Helpers -/

/-- The helper that runs the job of slot `i` makes its next step: it takes the job, discards
    the next extent or populates the range, or finishes. -/
def helperStep (i : Fin kJobSlots) (w : State) : State :=
  let s := w.slots i
  match s.state with
  | .posted => w.setSlot i { s with state := .running 0 }
  | .running count =>
    match s.kind, s.extents[count]? with
    | .discard, some e =>
      (w.setSlot i { s with state := .running (count + 1) }).record (.discarded e)
    | _, _ => w.setSlot i { s with state := .done }
  | _ => w

/-- The helpers move before the caller looks at a job. -/
def tick (w : State) : State :=
  match w.moves with
  | [] => w
  | now :: later => now.foldl (fun w i => helperStep i w) { w with moves := later }

/-! ## Collecting jobs -/

/-- The body of the loop in `reap`, for an extent of the job in slot `i`. -/
def forget (i : Fin kJobSlots) (posted : ℕ → Option Posted) (e : Range) : ℕ → Option Posted :=
  match posted e.start with
  | some q => if q.slot = i then Function.update posted e.start none else posted
  | none => posted

/-- `reap`: a finished job gives its extents back. -/
def reap (i : Fin kJobSlots) (w : State) : State :=
  let s := w.slots i
  let w := match s.kind with
    | .discard => { w with posted_discard := s.extents.foldl (forget i) w.posted_discard }
    | _ => w
  w.setSlot i { seq := s.seq }

/-- The slots in order. -/
def allSlots : List (Fin kJobSlots) := List.finRange kJobSlots

/-- `reapDone`. -/
def reapDone (w : State) : State :=
  allSlots.foldl
    (fun w i =>
      let w := tick w
      if (w.slots i).state = .done then reap i w else w)
    w

/-- The job of slot `i` runs to its end. -/
def runToDone (i : Fin kJobSlots) (w : State) : State :=
  (helperStep i)^[(w.slots i).extents.length + 2] w

/-- `awaitSlot`: a job is run to its end and collected. -/
def awaitSlot (i : Fin kJobSlots) (w : State) : State :=
  if (w.slots i).state = .idle then w else reap i (runToDone i (tick w))

/-- The slot whose job was posted first. -/
def oldestSlot (w : State) : Fin kJobSlots :=
  allSlots.foldl (fun oldest i => if (w.slots i).seq < (w.slots oldest).seq then i else oldest) 0

/-- The first slot that holds no job. -/
def idleSlot (w : State) : Option (Fin kJobSlots) :=
  allSlots.find? fun i => (w.slots i).state = .idle

/-- `takeSlot` after the finished jobs are collected. -/
def idleOrOldest (w : State) : Fin kJobSlots × State :=
  match idleSlot w with
  | some i => (i, w)
  | none => (oldestSlot w, awaitSlot (oldestSlot w) w)

/-- `takeSlot`: an idle slot, or the oldest after waiting for it. -/
def takeSlot (w : State) : Fin kJobSlots × State := idleOrOldest (reapDone w)

/-- `awaitPopulateOverlapping`. -/
def awaitPopulateOverlapping (p n : ℕ) (w : State) : State :=
  allSlots.foldl
    (fun w i =>
      let s := w.slots i
      if s.kind ≠ .populate ∨ s.state = .idle then w
      else if s.lo < p + n ∧ p < s.hi then awaitSlot i w
      else w)
    w

/-! ## Release, reuse and fresh bumps -/

/-- `onRelease` after its wait; it aborts on an extent that is already tracked. -/
def trackReleased (p n : ℕ) (w : State) : Option State :=
  if w.cfg.decommit = false then some w
  else if (w.findPending p).isSome ∨ (w.posted_discard p).isSome then none
  else
    let seq := w.next_release_seq
    some { w with
      next_release_seq := seq + 1
      pending := (p, ⟨n, w.epoch, w.major_epoch, seq⟩) :: w.pending
      pending_order := w.pending_order ++ [⟨p, seq⟩]
      pending_bytes := w.pending_bytes + n }

/-- `onRelease`: an extent becomes free. -/
def onRelease (p n : ℕ) (w : State) : Option State :=
  trackReleased p n (awaitPopulateOverlapping p n w)

/-- `onReuse`: a free extent is taken. -/
def onReuse (p : ℕ) (w : State) : Reuse × State :=
  match w.findPending p with
  | some it => (.cancelled, w.erasePending p it.size)
  | none =>
    match w.posted_discard p with
    | some it => (.afterDiscard, awaitSlot it.slot w)
    | none => if w.cfg.decommit = false then (.neverDiscarded, w) else (.afterDiscard, w)

/-- `onFreshBump`: the bytes still to commit, and where they start. -/
def onFreshBump (p n : ℕ) (w : State) : ℕ × ℕ :=
  if w.window_end ≠ 0 ∧ p < w.window_end then
    if p + n ≤ w.window_end then (0, p + n) else (p + n - w.window_end, w.window_end)
  else (n, p)

/-! ## Sync points -/

/-- `posted_discard_.emplace`: an entry that is there stays as it is. -/
def emplace (i : Fin kJobSlots) (posted : ℕ → Option Posted) (e : Range) : ℕ → Option Posted :=
  if (posted e.start).isSome then posted
  else Function.update posted e.start (some ⟨e.size, i⟩)

/-- `postDiscardBatch`: pending extents go to a job. -/
def postDiscardBatch (batch : List Range) (w : State) : State :=
  match batch with
  | [] => w
  | _ =>
    let (i, w) := takeSlot w
    { (w.setSlot i { w.slots i with
        state := .posted, kind := .discard, extents := batch, seq := w.next_seq }) with
      posted_discard := batch.foldl (emplace i) w.posted_discard
      next_seq := w.next_seq + 1 }

/-- The next multiple. -/
def roundUp (p g : ℕ) : ℕ := (p + g - 1) / g * g

/-- The end of `topUpWindow`, from the taking of a slot. -/
def postPopulate (lo hi : ℕ) (w : State) : State :=
  let (i, w) := takeSlot w
  { (w.setSlot i { w.slots i with
      state := .posted, kind := .populate, lo := lo, hi := hi, seq := w.next_seq }) with
    next_seq := w.next_seq + 1 }

/-- `topUpWindow`; `committed` is what `commit` returns. -/
def topUpWindow (bump cap_end : ℕ) (committed : Bool) (w : State) : State :=
  if w.cfg.ahead_bytes = 0 ∨ w.populate_supported = false then w
  else
    let target := min (roundUp (bump + w.cfg.ahead_bytes) kWindowGranule) cap_end
    let lo := if w.window_end ≠ 0 ∧ bump < w.window_end then w.window_end else bump
    if target ≤ lo then w
    else if committed = false then w
    else
      postPopulate lo target
        (({ w with window_end := target } : State).record (.committed ⟨lo, target - lo⟩))

/-- Whether a Pending extent is due at a sync point. -/
def aged (cfg : PageWorkConfig) (epoch major_epoch : UInt64) (it : Pending) : Bool :=
  (cfg.delay ≠ 0xFFFFFFFF ∧ cfg.delay.toUInt64 < epoch - it.epoch) ∨
    (cfg.delay_majors ≠ 0 ∧ cfg.delay_majors.toUInt64 < major_epoch - it.major_epoch)

/-- The loop of `syncPoint`: the extents to discard, oldest first. -/
def ageLoop : List OrderEntry → State → List Range × State
  | [], w => ([], { w with pending_order := [] })
  | oe :: order, w =>
    match w.findPending oe.p with
    | none => ageLoop order w
    | some it =>
      if it.seq ≠ oe.seq then ageLoop order w
      else if aged w.cfg w.epoch w.major_epoch it = false ∧
          ¬ (w.cfg.pending_cap ≠ 0 ∧ w.cfg.pending_cap < w.pending_bytes) then
        ([], { w with pending_order := oe :: order })
      else
        let r := ageLoop order (w.erasePending oe.p it.size)
        (⟨oe.p, it.size⟩ :: r.1, r.2)

/-- `syncPoint`. -/
def syncPoint (epoch major_epoch : UInt64) (bump cap_end : ℕ) (committed : Bool) (w : State) :
    State :=
  let w := { reapDone w with epoch := epoch, major_epoch := major_epoch }
  let (batch, w) := ageLoop w.pending_order w
  topUpWindow bump cap_end committed (postDiscardBatch batch w)

/-- The loop of `drainAll` over the Pending extents. -/
def discardPending (order : List OrderEntry) (w : State) : State :=
  order.foldl
    (fun v oe =>
      match w.findPending oe.p with
      | none => v
      | some it => if it.seq ≠ oe.seq then v else v.record (.discarded ⟨oe.p, it.size⟩))
    w

/-- `drainAll`. -/
def drainAll (discard_pending : Bool) (w : State) : State :=
  let w := allSlots.foldl (fun w i => awaitSlot i w) w
  if discard_pending then
    { discardPending w.pending_order w with pending := [], pending_order := [], pending_bytes := 0 }
  else w

/-! ## Runs -/

/-- What an event does to extents. -/
def Event.op? : Event → Option FreeLedger.Op
  | .released r => some (.released r)
  | .reused r _ => some (.reused r)
  | .discarded r => some (.discarded r)
  | .committed _ => none

/-- The history of the extents. -/
def ops (history : List Event) : List FreeLedger.Op := history.filterMap Event.op?

/-- The ranges committed so far. -/
def commits : List Event → List Range
  | [] => []
  | .committed r :: h => r :: commits h
  | _ :: h => commits h

/-- A `PageWork` and the bump pointer of its caller. -/
structure Machine where
  work : State
  bump : ℕ

/-- A call, with the helpers' moves during it, or a step of a helper. -/
inductive Action where
  | helper (i : Fin kJobSlots)
  | release (r : Range) (moves : List (List (Fin kJobSlots)))
  | reuse (r : Range) (moves : List (List (Fin kJobSlots)))
  | fresh (n : ℕ) (committed : Bool)
  | sync (epoch major_epoch : UInt64) (cap_end : ℕ) (committed : Bool)
      (moves : List (List (Fin kJobSlots)))
  | drain (discard_pending : Bool) (moves : List (List (Fin kJobSlots)))

/-- The caller commits what a fresh bump still needs, and moves its bump pointer when that
    succeeds. -/
def freshBump (n : ℕ) (committed : Bool) (m : Machine) : Machine :=
  let (bytes, commit_from) := onFreshBump m.bump n m.work
  if bytes = 0 then { m with bump := m.bump + n }
  else if committed then
    { work := m.work.record (.committed ⟨commit_from, bytes⟩), bump := m.bump + n }
  else m

/-- The state after an action.  What is released is not empty and apart from everything free,
    and what is reused is free. -/
def next (act : Action) (m : Machine) : Option Machine :=
  let w := m.work
  match act with
  | .helper i => some { m with work := helperStep i w }
  | .release r moves =>
    if 0 < r.size ∧ ∀ f ∈ free (ops w.history), Apart f r then
      (onRelease r.start r.size ({ w with moves := moves }.record (.released r))).map
        fun w => { m with work := w }
    else none
  | .reuse r moves =>
    if r ∈ free (ops w.history) then
      let (res, w) := onReuse r.start { w with moves := moves }
      some { m with work := w.record (.reused r res) }
    else none
  | .fresh n committed => some (freshBump n committed m)
  | .sync epoch major_epoch cap_end committed moves =>
    some { m with
      work := syncPoint epoch major_epoch m.bump cap_end committed { w with moves := moves } }
  | .drain discard_pending moves =>
    some { m with work := drainAll discard_pending { w with moves := moves } }

/-- A new `PageWork`, over a bump pointer. -/
def start (cfg : PageWorkConfig) (populate_supported : Bool) (bump : ℕ) : Machine where
  work := { cfg := cfg, populate_supported := populate_supported }
  bump := bump

end PageWork

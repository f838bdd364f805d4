import EcoCompiler.DequeHistory
import EcoCompiler.Threads

/-! # The work-stealing deque of the mark phase

    `WorkStealingDeque` of `MarkWork.hpp`: one owner and any number of thieves, each atomic
    access one step.  A slot holds a mark entry together with the number of the push that
    stored it; no step reads the number.  Positions are integers, and a pointer to a buffer
    is the number of buffers the deque had made before it.

    * `Buffer` — `Array`, with `make` and the slots;
    * `Owner` and `Owner.step` — `push`, `grow` and `take`;
    * `Thief` and `Thief.step` — `steal`;
    * `Event` — the history: pushes, removals and what the calls return. -/

namespace WorkStealingDeque

open DequeHistory Threads

/-! ## Buffers -/

def kEmpty : UInt64 := 0

def kAbort : UInt64 := ~~~0

/-- A mark entry and the number of the push that stored it. -/
structure Entry where
  number : ℕ
  value : UInt64
  deriving DecidableEq

/-- What a slot holds: nothing until the first store. -/
abbrev Slot := Option Entry

/-- `Array`: a power of two of slots. -/
structure Buffer where
  mask : ℕ
  buf : ℕ → Slot
  pow : ∃ log, mask + 1 = 2 ^ log

/-- `Array::make`. -/
def Buffer.make (log_size : ℕ) : Buffer where
  mask := 2 ^ log_size - 1
  buf _ := none
  pow := ⟨log_size, Nat.sub_add_cancel Nat.one_le_two_pow⟩

/-- The load of `buf[i & mask]`; no position that is used is negative. -/
def Buffer.get (a : Buffer) (i : ℤ) : Slot := a.buf (i.toNat &&& a.mask)

/-- The store to `buf[i & mask]`. -/
def Buffer.set (a : Buffer) (i : ℤ) (x : Slot) : Buffer :=
  { a with buf := Function.update a.buf (i.toNat &&& a.mask) x }

/-- The loop at the head of `grow`, for as many turns as its fuel allows. -/
def growLog (mask : ℕ) : ℕ → ℕ → ℕ
  | 0, log => log
  | fuel + 1, log => if 2 ^ log ≤ mask then growLog mask fuel (log + 1) else log

/-- The new buffer of `grow`. -/
def Buffer.grown (a : Buffer) : Buffer := .make (growLog a.mask (a.mask + 1) 0 + 1)

/-! ## The deque -/

/-- What a call returns: the content of a slot, or one of the two constants. -/
inductive Result where
  | entry (x : Slot)
  | kEmpty
  | kAbort
  deriving DecidableEq

/-- The value the caller sees; a slot that was never written holds no particular one. -/
def Result.value : Result → Option UInt64
  | .entry x => x.map Entry.value
  | .kEmpty => some WorkStealingDeque.kEmpty
  | .kAbort => some WorkStealingDeque.kAbort

/-- What happens to the deque, in the order of the steps: a push stores the bottom, a take or
    a steal makes an entry its own, a take begins, a call returns. -/
inductive Event (ι : Type) where
  | pushed (x : Slot)
  | took (x : Slot)
  | stole (i : ι) (x : Slot)
  | takeCalled
  | takeReturned (r : Result)
  | stealReturned (i : ι) (r : Result)
  deriving DecidableEq

/-- `top_`, `bottom_`, `array_` and the buffers, outgrown ones included; as history, the
    events so far, newest first. -/
structure Deque (ι : Type) where
  top : ℤ := 0
  bottom : ℤ := 0
  array : ℕ := 0
  arrays : ℕ → Buffer
  log : List (Event ι) := []

/-- What an event does to the queue. -/
def Event.op? {ι : Type} : Event ι → Option (Op Slot)
  | .pushed x => some (.push x)
  | .took x => some (.pop x)
  | .stole _ x => some (.shift x)
  | _ => none

variable {ι : Type}

/-- The operations of a history. -/
def ops (log : List (Event ι)) : List (Op Slot) := log.filterMap Event.op?

/-- The slot content a call returns, if it returns one. -/
def Event.returned? : Event ι → Option Slot
  | .takeReturned (.entry x) => some x
  | .stealReturned _ (.entry x) => some x
  | _ => none

/-- What the calls have returned, newest first. -/
def returned (log : List (Event ι)) : List Slot := log.filterMap Event.returned?

namespace Deque

/-- An event is added to the history. -/
def record (d : Deque ι) (e : Event ι) : Deque ι := { d with log := e :: d.log }

/-- A store to a slot of buffer `a`. -/
def store (d : Deque ι) (a : ℕ) (i : ℤ) (x : Slot) : Deque ι :=
  { d with arrays := Function.update d.arrays a ((d.arrays a).set i x) }

/-- The store of `array_` in `grow`: the new buffer is the next one made. -/
def install (d : Deque ι) (na : Buffer) : Deque ι :=
  { d with array := d.array + 1, arrays := Function.update d.arrays (d.array + 1) na }

/-- The entries between `top_` and `bottom_`, oldest first. -/
def entries (d : Deque ι) : List Slot :=
  (List.range (d.bottom - d.top).toNat).map fun k : ℕ => (d.arrays d.array).get (d.top + k)

end Deque

/-! ## The owner -/

/-- Where the owner stands: between calls, or before the access that is named, with what it
    has read so far. -/
inductive Owner where
  | idle
  | push (e : Entry)
  | pushTop (e : Entry) (b : ℤ)
  | pushArray (e : Entry) (b t : ℤ)
  | growLoad (e : Entry) (b t : ℤ) (a : ℕ) (na : Buffer) (i : ℤ)
  | growStore (e : Entry) (b t : ℤ) (a : ℕ) (na : Buffer) (i : ℤ) (x : Slot)
  | growInstall (e : Entry) (b t : ℤ) (na : Buffer)
  | pushSlot (e : Entry) (b t : ℤ) (a : ℕ)
  | pushBottom (e : Entry) (b : ℤ)
  | take
  | takeArray (b : ℤ)
  | takeBottom (b : ℤ) (a : ℕ)
  | takeTop (b : ℤ) (a : ℕ)
  | takeSlot (b : ℤ) (a : ℕ) (t : ℤ)
  | takeCas (b t : ℤ) (x : Slot)
  | takeBack (b : ℤ) (r : Result)

namespace Owner

/-- The condition of the loop in `grow`. -/
def copy (e : Entry) (b t : ℤ) (a : ℕ) (na : Buffer) (i : ℤ) : Owner :=
  if i < b then .growLoad e b t a na i else .growInstall e b t na

/-- One access by the owner's running call. -/
def step (d : Deque ι) : Owner → Option (Deque ι × Owner)
  | .idle => none
  | .push e => some (d, .pushTop e d.bottom)
  | .pushTop e b => some (d, .pushArray e b d.top)
  | .pushArray e b t =>
    let a := d.array
    if ((d.arrays a).mask : ℤ) < b - t then
      some (d, copy e b t a (d.arrays a).grown t)
    else some (d, .pushSlot e b t a)
  | .growLoad e b t a na i => some (d, .growStore e b t a na i ((d.arrays a).get i))
  | .growStore e b t a na i x => some (d, copy e b t a (na.set i x) (i + 1))
  | .growInstall e b t na => some (d.install na, .pushSlot e b t (d.array + 1))
  | .pushSlot e b _ a => some (d.store a b (some e), .pushBottom e b)
  | .pushBottom e b =>
    some (({ d with bottom := b + 1 } : Deque ι).record (.pushed (some e)), .idle)
  | .take => some (d, .takeArray (d.bottom - 1))
  | .takeArray b => some (d, .takeBottom b d.array)
  | .takeBottom b a => some ({ d with bottom := b }, .takeTop b a)
  | .takeTop b a =>
    let t := d.top
    -- with `t < b` no thief can reach position `b` any more
    if t < b then some (d.record (.took ((d.arrays a).get b)), .takeSlot b a t)
    else if t = b then some (d, .takeSlot b a t)
    else some (d, .takeBack b .kEmpty)
  | .takeSlot b a t =>
    let x := (d.arrays a).get b
    if t = b then some (d, .takeCas b t x)
    else some (d.record (.takeReturned (.entry x)), .idle)
  | .takeCas b t x =>
    if d.top = t then
      some (({ d with top := t + 1 } : Deque ι).record (.took x), .takeBack b (.entry x))
    else some (d, .takeBack b .kEmpty)
  | .takeBack b r =>
    some (({ d with bottom := b + 1 } : Deque ι).record (.takeReturned r), .idle)

end Owner

/-! ## The thieves -/

/-- Where a thief stands. -/
inductive Thief where
  | idle
  | steal
  | stealBottom (t : ℤ)
  | stealArray (t : ℤ)
  | stealSlot (t : ℤ) (a : ℕ)
  | stealCas (t : ℤ) (x : Slot)

/-- One access by the running call of thief `i`. -/
def Thief.step (i : ι) (d : Deque ι) : Thief → Option (Deque ι × Thief)
  | .idle => none
  | .steal => some (d, .stealBottom d.top)
  | .stealBottom t =>
    if t < d.bottom then some (d, .stealArray t)
    else some (d.record (.stealReturned i .kEmpty), .idle)
  | .stealArray t => some (d, .stealSlot t d.array)
  | .stealSlot t a => some (d, .stealCas t ((d.arrays a).get t))
  | .stealCas t x =>
    if d.top = t then
      some ((({ d with top := t + 1 } : Deque ι).record (.stole i x)).record
        (.stealReturned i (.entry x)), .idle)
    else some (d.record (.stealReturned i .kAbort), .idle)

/-! ## Runs -/

/-- What the threads share, and the owner. -/
structure Shared (ι : Type) where
  deque : Deque ι
  owner : Owner

/-- The deque, its owner and its thieves. -/
abbrev State (ι : Type) := Memory ι (Shared ι) Thief

/-- A call begins, or a running call makes its next access. -/
inductive Action (ι : Type) where
  | push (value : UInt64)
  | take
  | owner
  | steal (i : ι)
  | thief (i : ι)

/-- The state after the owner's part of a step. -/
def State.setOwner (s : State ι) (d : Deque ι) (o : Owner) : State ι :=
  { s with shared := { deque := d, owner := o } }

/-- The state after an action, if it can happen. -/
def next [DecidableEq ι] (act : Action ι) (s : State ι) : Option (State ι) :=
  let d := s.shared.deque
  match act with
  | .push value =>
    match s.shared.owner with
    | .idle => some (s.setOwner d (.push ⟨(pushed (ops d.log)).length, value⟩))
    | _ => none
  | .take =>
    match s.shared.owner with
    | .idle => some (s.setOwner (d.record .takeCalled) .take)
    | _ => none
  | .owner => (Owner.step d s.shared.owner).map fun r => s.setOwner r.1 r.2
  | .steal i =>
    match s.own i with
    | .idle => some (s.set i s.shared .steal)
    | _ => none
  | .thief i => (Thief.step i d (s.own i)).map fun r => s.set i { s.shared with deque := r.1 } r.2

/-- `WorkStealingDeque(log_initial)`, with no call running. -/
def start (log_initial : ℕ) : State ι where
  shared := { deque := { arrays := fun _ => .make log_initial }, owner := .idle }
  own _ := .idle

/-- Every call has returned. -/
def Quiet (s : State ι) : Prop := s.shared.owner = .idle ∧ ∀ i, s.own i = .idle

/-- The deque was empty when the last take began, or a thief has taken the last entry
    since. -/
def Emptied : List (Event ι) → Prop
  | [] => False
  | .takeCalled :: log => content (ops log) = []
  | .stole _ x :: log => content (ops log) = [x] ∨ Emptied log
  | _ :: log => Emptied log

end WorkStealingDeque

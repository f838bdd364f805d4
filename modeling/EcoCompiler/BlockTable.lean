import EcoCompiler.ArrayOrder

/-! # The table of old-generation blocks

    `BlockTable.hpp`: each block has an identity and a position in the iteration order.  A
    reserved array is a function from indices, which reads 0 where nothing was written; ids,
    positions and generations are 32-bit words.

    * `reserve`, `add`, `swapRemove`, `eraseOrdered`, `clear` — the operations;
    * `step`, `Throughout` — sequences of operations on live ids, and the incarnations they hand
      out. -/

/-- The description of a block. -/
structure BlockInfo where
  start : ℕ
  «end» : ℕ
  end_of_objects : ℕ
  size_class : ℕ
  is_large : Bool
  free_cells_in_block : UInt16 := 0xFFFF
  alloc_state : UInt8 := 0
  los : UInt8 := 0

/-- The statistics of a block. -/
structure BufferMetadata where
  live_bytes : UInt64
  garbage_bytes : ℕ
  fully_swept : Bool

/-- `BlockTable`. -/
structure BlockTable where
  info : ℕ → BlockInfo
  «meta» : ℕ → BufferMetadata
  lmark : ℕ → UInt8
  live : ℕ → UInt8
  pos_of : ℕ → ℕ
  order : ℕ → ℕ
  free : ℕ → ℕ
  gen : ℕ → ℕ
  capacity : ℕ
  size : ℕ
  free_count : ℕ
  high_water : ℕ

namespace BlockTable

open Function ArrayOrder

/-- What is kept in 32 bits. -/
def uint32 (n : ℕ) : ℕ := n % 2 ^ 32

/-- What a reserved entry reads. -/
def zeroInfo : BlockInfo where
  start := 0
  «end» := 0
  end_of_objects := 0
  size_class := 0
  is_large := false
  free_cells_in_block := 0

/-- A table after `reserve`: fresh pages read as 0. -/
def reserve (max_blocks : ℕ) : BlockTable where
  info := fun _ => zeroInfo
  «meta» := fun _ => ⟨0, 0, false⟩
  lmark := fun _ => 0
  live := fun _ => 0
  pos_of := fun _ => 0
  order := fun _ => 0
  free := fun _ => 0
  gen := fun _ => 0
  capacity := max_blocks
  size := 0
  free_count := 0
  high_water := 0

variable (t : BlockTable)

/-- `isLive`. -/
def isLive (id : ℕ) : Bool := id < t.high_water && t.live id ≠ 0

/-- `generation`. -/
def generation (id : ℕ) : ℕ := t.gen id

/-- `posOf`. -/
def posOf (id : ℕ) : ℕ := t.pos_of id

/-- `ensureCommitted`: aborts past the capacity. -/
def ensureCommitted (n : ℕ) : Option Unit := if t.capacity < n then none else some ()

/-- The id of a new block, and the table without it on the free stack or above the mark. -/
def takeId : Option (ℕ × BlockTable) :=
  if 0 < t.free_count then
    some (t.free (t.free_count - 1), { t with free_count := t.free_count - 1 })
  else if t.capacity ≤ t.high_water then none
  else do
    let high_water := uint32 (t.high_water + 1)
    t.ensureCommitted high_water
    pure (t.high_water, { t with high_water := high_water })

/-- `add`: the next id, or one that was given back. -/
def add (bi : BlockInfo) (m : BufferMetadata) : Option (ℕ × BlockTable) := do
  let (id, t) ← t.takeId
  t.ensureCommitted (t.size + 1)
  pure (id, { t with
    info := update t.info id bi
    «meta» := update t.meta id m
    lmark := update t.lmark id 0
    live := update t.live id 1
    gen := update t.gen id (uint32 (t.gen id + 1))
    pos_of := update t.pos_of id (uint32 t.size)
    order := update t.order t.size id
    size := t.size + 1 })

/-- The id is given back. -/
def retireId (id : ℕ) : BlockTable :=
  { t with
    live := update t.live id 0
    free := update t.free t.free_count id
    free_count := t.free_count + 1 }

/-- `swapRemove`: the last block takes the place. -/
def swapRemove (id : ℕ) : BlockTable :=
  let pos := t.pos_of id
  let last := t.size - 1
  let t := if pos ≠ last then
    { t with
      order := update t.order pos (t.order last)
      pos_of := update t.pos_of (t.order last) (uint32 pos) }
    else t
  { t with size := t.size - 1 }.retireId id

/-- The loop of `eraseOrdered`, for `n` positions from `i` on. -/
def shiftFrom (t : BlockTable) (i : ℕ) : ℕ → BlockTable
  | 0 => t
  | n + 1 =>
    let b := t.order (i + 1)
    { t with
      order := update t.order i b
      pos_of := update t.pos_of b (uint32 i) }.shiftFrom (i + 1) n

/-- `eraseOrdered`: the blocks after it move up. -/
def eraseOrdered (id : ℕ) : BlockTable :=
  let pos := t.pos_of id
  let t := t.shiftFrom pos (t.size - 1 - pos)
  { t with size := t.size - 1 }.retireId id

/-- `clear`. -/
def clear : BlockTable :=
  { t with
    live := fun i => if i < t.high_water then 0 else t.live i
    size := 0
    free_count := 0
    high_water := 0 }

/-- The live ids in iteration order. -/
def iteration : List ℕ := listed t.order t.size

/-- The released ids, the most recent one last. -/
def freeStack : List ℕ := listed t.free t.free_count

/-! ## Sequences of operations -/

/-- An operation on a table. -/
inductive Op where
  | add (bi : BlockInfo) (m : BufferMetadata)
  | swapRemove (id : ℕ)
  | eraseOrdered (id : ℕ)
  | clear

/-- A table, and the ids it has handed out, each with its generation. -/
abbrev Traced := BlockTable × List (ℕ × ℕ)

/-- An operation; `none` where the table is full, or the id is not live. -/
def step (s : Traced) : Op → Option Traced
  | .add bi m => (s.1.add bi m).map fun (id, t) => (t, s.2 ++ [(id, t.generation id)])
  | .swapRemove id => if s.1.isLive id then some (s.1.swapRemove id, s.2) else none
  | .eraseOrdered id => if s.1.isLive id then some (s.1.eraseOrdered id, s.2) else none
  | .clear => some (s.1.clear, s.2)

/-- `P` holds at the start and in each state that is reached. -/
def Throughout (P : Traced → Prop) (s : Traced) : List Op → Prop
  | [] => P s
  | op :: ops => P s ∧ ∀ s' ∈ step s op, Throughout P s' ops

end BlockTable

import Mathlib

/-! # Scanning a block's bitmap

    `BitmapScan.hpp`: the bitmap is an array of bytes, a `uint64_t` a `BitVec 64`.  A read
    outside the array gives `none`.

    * `strideMask`, `kStride` — the precomputed patterns, steps and reciprocals;
    * `divStride` — division by a stride through its reciprocal;
    * `nextFreeCell` — the first clear cell-start bit. -/

namespace BitmapScan

/-- The bytes of a bitmap. -/
abbrev Bitmap := Array (BitVec 8)

/-- `n` bytes from byte `i` on, the first one lowest. -/
def loadBytes (bits : Bitmap) (i : ℕ) : ℕ → Option (BitVec 64)
  | 0 => some 0
  | n + 1 =>
      match bits[i]?, loadBytes bits (i + 1) n with
      | some b, some v => some (b.setWidth 64 ||| (v <<< 8))
      | _, _ => none

/-- `loadWord`. -/
def loadWord (bits : Bitmap) (w : ℕ) : Option (BitVec 64) := loadBytes bits (w * 8) 8

/-- `testBit`. -/
def testBit (bits : Bitmap) (bit : ℕ) : Option Bool :=
  (bits[bit >>> 3]?).map fun b : BitVec 8 => decide ((b >>> (bit &&& 7)) &&& 1#8 ≠ 0#8)

/-- The loop of `strideMask`. -/
def strideMaskLoop (m b : ℕ) (v : BitVec 64) : BitVec 64 :=
  if _h : b < 64 ∧ 1 ≤ m then strideMaskLoop m (b + m) (v ||| (1#64 <<< b)) else v
termination_by 64 - b

/-- `strideMask`; `m` is at least 1. -/
def strideMask (m : ℕ) : BitVec 64 := strideMaskLoop m 0 0

/-- `StrideTables`. -/
structure StrideTables where
  pattern : Array (BitVec 64)
  step : Array ℕ
  inv : Array ℕ

/-- `makeStrideTables`: index 0 is unused and zero. -/
def makeStrideTables : StrideTables where
  pattern := Array.ofFn fun m : Fin 64 => if m.val = 0 then 0 else strideMask m
  step := Array.ofFn fun m : Fin 64 => if m.val = 0 then 0 else 64 % m.val
  inv := Array.ofFn fun m : Fin 64 => if m.val = 0 then 0 else (2 ^ 32 + m.val - 1) / m.val

/-- `kStride`. -/
def kStride : StrideTables := makeStrideTables

/-- `divStride`: a product of two `uint64_t`, its upper half cast to `uint32_t`. -/
def divStride (g m : ℕ) : ℕ := g * kStride.inv.getD m 0 % 2 ^ 64 / 2 ^ 32 % 2 ^ 32

/-- `__builtin_ctzll`; its argument is not 0. -/
def ctzll (x : BitVec 64) : ℕ := ((List.range 64).find? fun j => x.getLsbD j).getD 64

/-- The mask of a word whose phase is `r`. -/
def phaseMask (m r : ℕ) : BitVec 64 :=
  kStride.pattern.getD m 0 <<< (if r ≠ 0 then m - r else 0)

/-- The phase of the next word. -/
def nextPhase (m r : ℕ) : ℕ :=
  let r := r + kStride.step.getD m 0
  if m ≤ r then r - m else r

/-- The loop of `nextFreeCell` for strides of 64 and above. -/
def scanCells (bits : Bitmap) (m num_cells k : ℕ) : Option ℕ :=
  if k < num_cells then
    match testBit bits (k * m) with
    | none => none
    | some true => scanCells bits m num_cells (k + 1)
    | some false => some k
  else some num_cells
termination_by num_cells - k

/-- The loop of `nextFreeCell` for strides below 64. -/
def scanWords (bits : Bitmap) (m num_cells last_w w r : ℕ) (mask : BitVec 64) : Option ℕ :=
  match loadWord bits w with
  | none => none
  | some word =>
      let free := ~~~word &&& mask
      if free ≠ 0 then
        let g := (w <<< 6) + ctzll free
        let k := divStride g m
        some (if k < num_cells then k else num_cells)
      else if last_w ≤ w then some num_cells
      else
        let r := nextPhase m r
        scanWords bits m num_cells last_w (w + 1) r (phaseMask m r)
termination_by last_w - w

/-- `nextFreeCell`. -/
def nextFreeCell (bits : Bitmap) (m from_cell num_cells : ℕ) : Option ℕ :=
  if num_cells ≤ from_cell then some num_cells
  else if 64 ≤ m then scanCells bits m num_cells from_cell
  else
    let g0 := from_cell * m
    let last_bit := (num_cells - 1) * m
    let last_w := last_bit >>> 6
    let w := g0 >>> 6
    let r := w * 64 % m
    let mask := phaseMask m r &&& (BitVec.allOnes 64 <<< (g0 &&& 63))
    scanWords bits m num_cells last_w w r mask

end BitmapScan

import Mathlib

/-! # Readers of bytes, independent of any program

    A reader takes a value from the front of the bytes, or refuses them.

    * `andThen`, `many`, `exactly` — one reader after another, a number of times, within a length;
    * `Reads` — a reader takes these bytes, whatever follows, for this value;
    * `Reads.andThen`, `Reads.many` — what is written piece by piece is read piece by piece. -/

namespace ByteReader

/-- A reader takes a value off the front of the bytes, or refuses them. -/
def Reader (α : Type) := List UInt8 → Option (α × List UInt8)

variable {α β γ : Type}

/-- Takes nothing. -/
def done (a : α) : Reader α := fun bytes => some (a, bytes)

/-- Refuses. -/
def refuse : Reader α := fun _ => none

/-- One reader after another. -/
def andThen (p : Reader α) (f : α → Reader β) : Reader β :=
  fun bytes => (p bytes).bind fun read => f read.1 read.2

/-- One byte. -/
def byte : Reader UInt8
  | [] => none
  | b :: bytes => some (b, bytes)

/-- A number of values. -/
def many (p : Reader α) : ℕ → Reader (List α)
  | 0 => done []
  | n + 1 => andThen p fun a => andThen (many p n) fun as => done (a :: as)

/-- A value that takes the next `n` bytes, and all of them. -/
def exactly (n : ℕ) (p : Reader α) : Reader α :=
  fun bytes => (p (bytes.take n)).bind fun read =>
    if read.2 = [] then some (read.1, bytes.drop n) else none

/-- The reader takes `bytes`, whatever follows, for `a`. -/
def Reads (p : Reader α) (bytes : List UInt8) (a : α) : Prop :=
  ∀ rest, p (bytes ++ rest) = some (a, rest)

variable {p : Reader α} {f : α → Reader β} {a : α} {b : β} {bytes more : List UInt8}

theorem Reads.done (a : α) : Reads (ByteReader.done a) [] a := fun _ => rfl

theorem Reads.byte (b : UInt8) : Reads ByteReader.byte [b] b := fun _ => rfl

theorem Reads.andThen (hp : Reads p bytes a) (hf : Reads (f a) more b) :
    Reads (ByteReader.andThen p f) (bytes ++ more) b := by
  intro rest
  rw [List.append_assoc, ByteReader.andThen, hp]
  exact hf rest

/-- The last of several readers adds no bytes. -/
theorem Reads.finish (hp : Reads p bytes a) (hf : f a = ByteReader.done b) :
    Reads (ByteReader.andThen p f) bytes b := by
  intro rest
  rw [ByteReader.andThen, hp, Option.bind_some, hf]
  rfl

theorem Reads.exactly (hp : Reads p bytes a) :
    Reads (ByteReader.exactly bytes.length p) bytes a := by
  intro rest
  have hall := hp []
  rw [List.append_nil] at hall
  rw [ByteReader.exactly, List.take_left, hall, Option.bind_some, if_pos rfl, List.drop_left]

/-- Values that are written one after the other are read one after the other. -/
theorem Reads.many {enc : γ → List UInt8} {holds : γ → α → Prop} {xs : List γ}
    (h : ∀ x ∈ xs, ∃ a, Reads p (enc x) a ∧ holds x a) :
    ∃ as, Reads (ByteReader.many p xs.length) (xs.flatMap enc) as ∧ List.Forall₂ holds xs as := by
  induction xs with
  | nil => exact ⟨[], Reads.done [], .nil⟩
  | cons x xs ih =>
    obtain ⟨⟨a, ha, hx⟩, hxs⟩ := List.forall_mem_cons.mp h
    obtain ⟨as, has, hholds⟩ := ih hxs
    refine ⟨a :: as, ?_, .cons hx hholds⟩
    rw [List.flatMap_cons]
    exact ha.andThen (has.finish rfl)

theorem Reads.many_map {enc : γ → List UInt8} {val : γ → α} {xs : List γ}
    (h : ∀ x ∈ xs, Reads p (enc x) (val x)) :
    Reads (ByteReader.many p xs.length) (xs.flatMap enc) (xs.map val) := by
  induction xs with
  | nil => exact Reads.done []
  | cons x xs ih =>
    obtain ⟨hx, hxs⟩ := List.forall_mem_cons.mp h
    rw [List.flatMap_cons]
    exact hx.andThen ((ih hxs).finish rfl)

end ByteReader

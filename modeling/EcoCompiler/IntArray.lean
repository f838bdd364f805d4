import Mathlib

/-! # Arrays at integer indices, independent of any program

    An array is the list of its values.  Reading outside it gives nothing, and writing there leaves
    it as it is.

    * `get`, `set` — reading and writing;
    * `repeated`, `tabulate` — arrays of a length;
    * `get_set`, `get_tabulate` — a write changes its own index only, and what is there. -/

namespace IntArray

variable {α : Type} {xs : List α} {i j : ℤ} {n : ℕ}

/-- The index is inside the array. -/
def Inside (n : ℕ) (i : ℤ) : Prop := 0 ≤ i ∧ i < n

instance (n : ℕ) (i : ℤ) : Decidable (Inside n i) := inferInstanceAs (Decidable (_ ∧ _))

/-- `Array.get`. -/
def get (i : ℤ) (xs : List α) : Option α := if 0 ≤ i then xs[i.toNat]? else none

/-- `Array.set`. -/
def set (i : ℤ) (x : α) (xs : List α) : List α := if 0 ≤ i then xs.set i.toNat x else xs

/-- `Array.repeat`. -/
def repeated (n : ℕ) (x : α) : List α := List.replicate n x

/-- `Array.initialize`. -/
def tabulate (n : ℕ) (f : ℤ → α) : List α := (List.range n).map fun k : ℕ => f k

@[simp] theorem length_set (i : ℤ) (x : α) (xs : List α) : (set i x xs).length = xs.length := by
  rw [set]
  split_ifs with h
  · exact List.length_set
  · rfl

@[simp] theorem length_repeated (n : ℕ) (x : α) : (repeated n x).length = n := List.length_replicate

@[simp] theorem length_tabulate (n : ℕ) (f : ℤ → α) : (tabulate n f).length = n := by
  rw [tabulate, List.length_map, List.length_range]

theorem get_eq_none (h : ¬ Inside xs.length i) : get i xs = none := by
  rw [get]
  split_ifs with hi
  · refine List.getElem?_eq_none (not_lt.mp fun hlt => h ⟨hi, ?_⟩)
    omega
  · rfl

theorem get_isSome : (get i xs).isSome ↔ Inside xs.length i := by
  constructor
  · intro h
    by_contra hout
    rw [get_eq_none hout] at h
    cases h
  · rintro ⟨hi, hlt⟩
    rw [get, if_pos hi]
    have hn : i.toNat < xs.length := by omega
    rw [List.getElem?_eq_getElem hn]
    rfl

theorem inside_of_get {x : α} (h : get i xs = some x) : Inside xs.length i :=
  get_isSome.mp (by rw [h]; rfl)

theorem get_set_self (h : Inside xs.length i) (x : α) : get i (set i x xs) = some x := by
  obtain ⟨hi, hlt⟩ := h
  rw [get, set, if_pos hi, if_pos hi, List.getElem?_set_self]
  omega

theorem get_set_of_ne (h : j ≠ i) (x : α) : get j (set i x xs) = get j xs := by
  rw [get, get, set]
  split_ifs with hj hi
  · exact List.getElem?_set_ne (by omega)
  · rfl
  · rfl

/-- A write changes its own index only. -/
theorem get_set (h : Inside xs.length i) (x : α) :
    get j (set i x xs) = if j = i then some x else get j xs := by
  split_ifs with hj
  · rw [hj, get_set_self h]
  · exact get_set_of_ne hj x

theorem get_repeated (h : Inside n i) (x : α) : get i (repeated n x) = some x := by
  obtain ⟨hi, hlt⟩ := h
  rw [get, if_pos hi, repeated, List.getElem?_replicate, if_pos (by omega)]

theorem get_tabulate (h : Inside n i) (f : ℤ → α) : get i (tabulate n f) = some (f i) := by
  obtain ⟨hi, hlt⟩ := h
  have hn : i.toNat < n := by omega
  rw [get, if_pos hi, tabulate, List.getElem?_map, List.getElem?_range hn, Option.map_some,
    Int.toNat_of_nonneg hi]

end IntArray

import Mathlib

/-! # A list in an array

    The first cells of an array hold a list, and a second array holds the position of each
    element of it.

    * `listed` — the list in the first cells;
    * `Inverse` — the second array gives the positions;
    * `Inverse.push`, `Inverse.swap`, `Inverse.shift` — what adding and the two ways of removing
      an element keep. -/

namespace ArrayOrder

open Function

variable {α : Type} {order order' : ℕ → α} {pos pos' : α → ℕ} {n p : ℕ} {a : α}

/-- The list in the first `n` cells. -/
def listed (order : ℕ → α) (n : ℕ) : List α := (List.range n).map order

@[simp]
theorem length_listed (order : ℕ → α) (n : ℕ) : (listed order n).length = n := by
  simp [listed]

theorem mem_listed : a ∈ listed order n ↔ ∃ p < n, order p = a := by
  simp [listed]

theorem getElem?_listed (order : ℕ → α) (n p : ℕ) :
    (listed order n)[p]? = if p < n then some (order p) else none := by
  rw [listed, List.getElem?_map]
  split
  · next h => simp [h]
  · next h => simp [h]

theorem listed_succ (order : ℕ → α) (n : ℕ) :
    listed order (n + 1) = listed order n ++ [order n] := by
  simp [listed, List.range_succ]

theorem listed_congr (h : ∀ p < n, order' p = order p) : listed order' n = listed order n :=
  List.map_congr_left fun p hp => h p (List.mem_range.mp hp)

/-- A cell after the list does not belong to it. -/
theorem listed_update (hp : n ≤ p) (a : α) : listed (update order p a) n = listed order n :=
  listed_congr fun _ hq => update_of_ne (Nat.ne_of_lt (hq.trans_le hp)) _ _

theorem listed_push (order : ℕ → α) (n : ℕ) (a : α) :
    listed (update order n a) (n + 1) = listed order n ++ [a] := by
  rw [listed_succ, listed_update le_rfl, update_self]

/-- The last element goes where the removed one was. -/
theorem listed_swap (hp : p ≤ n) : listed (update order p (order n)) n
    = ((listed order (n + 1)).set p (order n)).dropLast := by
  apply List.ext_getElem?
  intro q
  rw [List.getElem?_dropLast, List.length_set, length_listed, getElem?_listed, List.getElem?_set,
    length_listed, getElem?_listed, Nat.add_sub_cancel]
  by_cases hq : q < n
  · rw [if_pos hq, if_pos hq, if_pos (Nat.lt_succ_of_lt hq)]
    by_cases heq : p = q
    · rw [if_pos heq, if_pos (Nat.lt_succ_of_le hp), heq, update_self]
    · rw [if_neg heq, update_of_ne fun h => heq h.symm]
  · rw [if_neg hq, if_neg hq]

/-- The later elements move down one cell. -/
theorem listed_shift (hp : p ≤ n) (hlow : ∀ q < p, order' q = order q)
    (hhigh : ∀ q, p ≤ q → q < n → order' q = order (q + 1)) :
    listed order' n = (listed order (n + 1)).eraseIdx p := by
  apply List.ext_getElem?
  intro q
  rw [List.getElem?_eraseIdx, getElem?_listed, getElem?_listed, getElem?_listed]
  by_cases hq : q < p
  · rw [if_pos hq, if_pos (hq.trans_le hp), if_pos (Nat.lt_succ_of_lt (hq.trans_le hp)),
      hlow q hq]
  · rw [if_neg hq]
    by_cases hlt : q < n
    · rw [if_pos hlt, if_pos (Nat.succ_lt_succ hlt), hhigh q (Nat.le_of_not_lt hq) hlt]
    · rw [if_neg hlt, if_neg fun h => hlt (Nat.lt_of_succ_lt_succ h)]

/-- The second array gives the positions in the first. -/
def Inverse (order : ℕ → α) (pos : α → ℕ) (n : ℕ) : Prop := ∀ p < n, pos (order p) = p

namespace Inverse

theorem nodup (h : Inverse order pos n) : (listed order n).Nodup := by
  refine List.Nodup.map_on (fun p hp q hq heq => ?_) List.nodup_range
  rw [← h p (List.mem_range.mp hp), heq, h q (List.mem_range.mp hq)]

/-- The position of an element. -/
theorem pos_of_mem (h : Inverse order pos n) (ha : a ∈ listed order n) :
    pos a < n ∧ order (pos a) = a := by
  obtain ⟨p, hp, rfl⟩ := mem_listed.mp ha
  rw [h p hp]
  exact ⟨hp, rfl⟩

theorem getElem?_iff (h : Inverse order pos n) :
    (listed order n)[p]? = some a ↔ a ∈ listed order n ∧ pos a = p := by
  constructor
  · intro hget
    refine ⟨List.mem_of_getElem? hget, ?_⟩
    rw [getElem?_listed] at hget
    split at hget
    · next hp => rw [← Option.some.inj hget, h p hp]
    · cases hget
  · rintro ⟨ha, rfl⟩
    obtain ⟨hp, horder⟩ := h.pos_of_mem ha
    rw [getElem?_listed, if_pos hp, horder]

section

variable [DecidableEq α]

theorem push (h : Inverse order pos n) (ha : a ∉ listed order n) :
    Inverse (update order n a) (update pos a n) (n + 1) := by
  intro p hp
  rcases Nat.lt_succ_iff_lt_or_eq.mp hp with hp | rfl
  · have hne : order p ≠ a := fun heq => ha (mem_listed.mpr ⟨p, hp, heq⟩)
    rw [update_of_ne (Nat.ne_of_lt hp), update_of_ne hne, h p hp]
  · rw [update_self, update_self]

theorem swap (h : Inverse order pos (n + 1)) (p : ℕ) :
    Inverse (update order p (order n)) (update pos (order n) p) n := by
  intro q hq
  by_cases heq : q = p
  · rw [heq, update_self, update_self]
  · have hne : order q ≠ order n := by
      intro hsame
      have hpos := h q (Nat.lt_succ_of_lt hq)
      rw [hsame, h n (Nat.lt_succ_self n)] at hpos
      exact absurd hpos.symm (Nat.ne_of_lt hq)
    rw [update_of_ne heq, update_of_ne hne, h q (Nat.lt_succ_of_lt hq)]

end

theorem shift (h : Inverse order pos (n + 1)) (hlow : ∀ q < p, order' q = order q)
    (hhigh : ∀ q, p ≤ q → q < n → order' q = order (q + 1))
    (hposLow : ∀ q < p, q ≤ n → pos' (order q) = pos (order q))
    (hposHigh : ∀ q, p ≤ q → q < n → pos' (order (q + 1)) = q) : Inverse order' pos' n := by
  intro q hq
  by_cases hlt : q < p
  · rw [hlow q hlt, hposLow q hlt hq.le, h q (Nat.lt_succ_of_lt hq)]
  · rw [hhigh q (Nat.le_of_not_lt hlt) hq, hposHigh q (Nat.le_of_not_lt hlt) hq]

end Inverse

/-- What is left after a swap: all but the removed element. -/
theorem mem_swap (h : Inverse order pos (n + 1)) (hp : p ≤ n) :
    a ∈ listed (update order p (order n)) n ↔ a ∈ listed order (n + 1) ∧ a ≠ order p := by
  have hinj : ∀ q r, q ≤ n → r ≤ n → order q = order r → q = r := by
    intro q r hq hr heq
    rw [← h q (Nat.lt_succ_of_le hq), heq, h r (Nat.lt_succ_of_le hr)]
  rw [mem_listed, mem_listed]
  constructor
  · rintro ⟨q, hq, rfl⟩
    by_cases heq : q = p
    · rw [heq, update_self]
      refine ⟨⟨n, Nat.lt_succ_self n, rfl⟩, fun hsame => ?_⟩
      have hpn := hinj n p le_rfl hp hsame
      rw [heq, ← hpn] at hq
      exact lt_irrefl n hq
    · rw [update_of_ne heq]
      exact ⟨⟨q, Nat.lt_succ_of_lt hq, rfl⟩, fun hsame => heq (hinj q p hq.le hp hsame)⟩
  · rintro ⟨⟨q, hq, rfl⟩, hne⟩
    have hqp : q ≠ p := fun heq => hne (by rw [heq])
    by_cases hqn : q = n
    · have hpn : p ≠ n := fun heq => hqp (hqn.trans heq.symm)
      refine ⟨p, Nat.lt_of_le_of_ne hp hpn, ?_⟩
      rw [update_self, hqn]
    · refine ⟨q, Nat.lt_of_le_of_ne (Nat.lt_succ_iff.mp hq) hqn, ?_⟩
      rw [update_of_ne hqp]

/-- A shift erases the removed element. -/
theorem listed_shift_erase [DecidableEq α] (h : Inverse order pos (n + 1)) (hp : p ≤ n)
    (hlow : ∀ q < p, order' q = order q)
    (hhigh : ∀ q, p ≤ q → q < n → order' q = order (q + 1)) :
    listed order' n = (listed order (n + 1)).erase (order p) := by
  rw [listed_shift hp hlow hhigh]
  have hget : (listed order (n + 1))[p]? = some (order p) := by
    rw [getElem?_listed, if_pos (Nat.lt_succ_of_le hp)]
  obtain ⟨hlt, heq⟩ := List.getElem?_eq_some_iff.mp hget
  rw [← heq, List.Nodup.erase_getElem h.nodup]

end ArrayOrder

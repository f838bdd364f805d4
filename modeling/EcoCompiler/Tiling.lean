import Mathlib

/-! # Ranges that tile an interval, independent of any program

    * `Tiling.Tiles` — every position of an interval lies in exactly one range, and no other
      position in any;
    * `Tiles.push`, `tiles_split`, `Tiles.trim` — how a tiling grows, is cut, and shrinks;
    * `Tiles.walk` — a tiling by non-empty ranges is walked from end to end by their sizes. -/

namespace Tiling

/-- The positions from `start` on, `size` of them. -/
structure Range where
  start : ℕ
  size : ℕ
  deriving DecidableEq

/-- The position after the last one. -/
def Range.stop (r : Range) : ℕ := r.start + r.size

/-- The position lies in the range. -/
def Range.Covers (r : Range) (x : ℕ) : Prop := r.start ≤ x ∧ x < r.stop

instance (r : Range) (x : ℕ) : Decidable (r.Covers x) := inferInstanceAs (Decidable (_ ∧ _))

/-- How many of the ranges a position lies in. -/
def coverage (m : Multiset Range) (x : ℕ) : ℕ := m.countP fun r => r.Covers x

theorem coverage_cons (r : Range) (m : Multiset Range) (x : ℕ) :
    coverage (r ::ₘ m) x = coverage m x + if r.Covers x then 1 else 0 :=
  Multiset.countP_cons ..

/-- Every position from `a` to `b` lies in exactly one of the ranges, and no other one does in
    any. -/
def Tiles (m : Multiset Range) (a b : ℕ) : Prop :=
  ∀ x, coverage m x = if a ≤ x ∧ x < b then 1 else 0

theorem tiles_empty (a : ℕ) : Tiles 0 a a := by
  intro x
  rw [coverage, Multiset.countP_zero, if_neg (by omega)]

variable {m : Multiset Range} {a b p k n : ℕ}

/-- A range at the end of the interval makes it longer. -/
theorem Tiles.push (h : Tiles m a b) (le : a ≤ b) (n : ℕ) :
    Tiles (⟨b, n⟩ ::ₘ m) a (b + n) := by
  intro x
  rw [coverage_cons, h x]
  split_ifs <;> simp only [Range.Covers, Range.stop] at * <;> omega

/-- A range can be cut in two. -/
theorem tiles_split :
    Tiles (⟨p, k + n⟩ ::ₘ m) a b ↔ Tiles (⟨p, k⟩ ::ₘ ⟨p + k, n⟩ ::ₘ m) a b := by
  refine forall_congr' fun x => ?_
  rw [coverage_cons, coverage_cons, coverage_cons]
  split_ifs <;> simp only [Range.Covers, Range.stop] at * <;> omega

/-- An empty range can be left out. -/
theorem tiles_zero : Tiles (⟨p, 0⟩ ::ₘ m) a b ↔ Tiles m a b := by
  refine forall_congr' fun x => ?_
  rw [coverage_cons, if_neg]
  · rw [Nat.add_zero]
  · rintro ⟨h1, h2⟩
    exact absurd (lt_of_le_of_lt h1 h2) (lt_irrefl p)

/-- The last range can be given back. -/
theorem Tiles.trim (h : Tiles (⟨p, n⟩ ::ₘ m) a (p + n)) : Tiles m a p := by
  intro x
  have hx := h x
  rw [coverage_cons] at hx
  split_ifs at hx ⊢ <;> simp only [Range.Covers, Range.stop] at * <;> omega

/-- A position that one of the ranges covers lies in the interval. -/
theorem Tiles.inside {r : Range} (h : Tiles m a b) (mem : r ∈ m) {x : ℕ} (hx : r.Covers x) :
    a ≤ x ∧ x < b := by
  by_contra hout
  have hc := h x
  rw [if_neg hout, coverage, Multiset.countP_eq_zero] at hc
  exact hc r mem hx

/-- No range of a tiling goes past the end. -/
theorem Tiles.stop_le {r : Range} (h : Tiles m a b) (mem : r ∈ m) (pos : 0 < r.size) :
    a ≤ r.start ∧ r.stop ≤ b := by
  have h1 := h.inside mem (x := r.start) ⟨le_rfl, by rw [Range.stop]; omega⟩
  have h2 := h.inside mem (x := r.stop - 1) ⟨by rw [Range.stop]; omega, by rw [Range.stop]; omega⟩
  omega

/-! ## Walking a tiling -/

/-- From `a`, the ranges follow one another to `b`. -/
def Walk : ℕ → List Range → ℕ → Prop
  | a, [], b => a = b
  | a, r :: l, b => r.start = a ∧ Walk r.stop l b

theorem Walk.total {l : List Range} (h : Walk a l b) : a + (l.map Range.size).sum = b := by
  induction l generalizing a with
  | nil => exact (Nat.add_zero a).trans h
  | cons r l ih =>
      have hr := ih h.2
      rw [Range.stop, h.1] at hr
      rw [List.map_cons, List.sum_cons]
      omega

theorem Walk.le {l : List Range} (h : Walk a l b) : ∀ r ∈ l, a ≤ r.start := by
  induction l generalizing a with
  | nil => exact fun r hr => (List.not_mem_nil hr).elim
  | cons r l ih =>
      intro r' hr'
      rcases List.mem_cons.mp hr' with rfl | hr'
      · exact h.1.ge
      · have := ih h.2 r' hr'
        rw [Range.stop, h.1] at this
        omega

/-- Two ranges have no position in common. -/
def Apart (r r' : Range) : Prop := r.stop ≤ r'.start ∨ r'.stop ≤ r.start

theorem Apart.symm {r r' : Range} (h : Apart r r') : Apart r' r := Or.symm h

/-- The ranges of a walk are apart. -/
theorem Walk.apart {l : List Range} (h : Walk a l b) : l.Pairwise Apart := by
  induction l generalizing a with
  | nil => exact List.Pairwise.nil
  | cons r l ih => exact List.Pairwise.cons (fun r' hr' => Or.inl (h.2.le r' hr')) (ih h.2)

/-- A tiling by non-empty ranges can be walked from its start to its end. -/
theorem Tiles.walk (h : Tiles m a b) (le : a ≤ b) (pos : ∀ r ∈ m, 0 < r.size) :
    ∃ l : List Range, (l : Multiset Range) = m ∧ Walk a l b := by
  -- by the number of ranges: the one that covers the start is the first
  induction hc : m.card generalizing m a with
  | zero =>
      rw [Multiset.card_eq_zero] at hc
      subst hc
      refine ⟨[], rfl, ?_⟩
      have := h a
      rw [coverage, Multiset.countP_zero] at this
      split_ifs at this with hab
      show a = b
      omega
  | succ c ih =>
      have hlt : a < b := by
        by_contra hge
        obtain ⟨r, hr⟩ := Multiset.card_pos_iff_exists_mem.mp (show 0 < m.card by omega)
        have hin := h.inside hr (x := r.start) ⟨le_rfl, by have := pos r hr; rw [Range.stop]; omega⟩
        omega
      have hfirst := h a
      rw [if_pos ⟨le_rfl, hlt⟩] at hfirst
      obtain ⟨r, hr, hcov⟩ := Multiset.countP_pos.mp (show 0 < coverage m a by omega)
      have hbounds := h.stop_le hr (pos r hr)
      have hstart : r.start = a := le_antisymm hcov.1 hbounds.1
      obtain ⟨m', rfl⟩ := Multiset.exists_cons_of_mem hr
      have hrest : Tiles m' r.stop b := by
        intro x
        have hx := h x
        have hpos := pos r hr
        have hle := hbounds.2
        rw [coverage_cons] at hx
        split_ifs at hx ⊢ <;> simp only [Range.Covers, Range.stop] at * <;> omega
      obtain ⟨l, hl, walk⟩ := ih hrest hbounds.2
        (fun r' hr' => pos r' (Multiset.mem_cons_of_mem hr'))
        (by rw [Multiset.card_cons] at hc; omega)
      exact ⟨r :: l, by rw [← hl]; rfl, hstart, walk⟩

theorem Tiles.total (h : Tiles m a b) (le : a ≤ b) (pos : ∀ r ∈ m, 0 < r.size) :
    a + (m.map Range.size).sum = b := by
  obtain ⟨l, rfl, walk⟩ := h.walk le pos
  rw [Multiset.map_coe, Multiset.sum_coe]
  exact walk.total

/-- Some of the ranges of a tiling are apart. -/
theorem Tiles.apart (h : Tiles m a b) (le : a ≤ b) (pos : ∀ r ∈ m, 0 < r.size)
    {l : List Range} (sub : (l : Multiset Range) ≤ m) : l.Pairwise Apart := by
  obtain ⟨l', rfl, walk⟩ := h.walk le pos
  obtain ⟨l'', perm, sublist⟩ := Multiset.coe_le.mp sub
  exact perm.pairwise (walk.apart.sublist sublist) fun h => h.symm

end Tiling

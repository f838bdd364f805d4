import Mathlib.Data.List.Basic

/-! # Nested brackets

    A text of brackets and other things, read from the left inside one open bracket.

    * `Nest` — every bracket that is opened is closed in its turn;
    * `closeAt` — what is before and after the mark that closes the bracket;
    * `closeAt_eq_some_iff` — that is the end of a nested text. -/

inductive Mark (α : Type) where
  | opening
  | closing
  | other (a : α)

namespace Mark

variable {α : Type} {b l n r : List (Mark α)} {k : ℕ}

/-- The brackets close in the order of their nesting. -/
inductive Nest : List (Mark α) → Prop where
  | nil : Nest []
  | other (a : α) {l : List (Mark α)} (h : Nest l) : Nest (.other a :: l)
  | wrap {n l : List (Mark α)} (hn : Nest n) (hl : Nest l) : Nest (.opening :: n ++ .closing :: l)

theorem nest_other (l : List α) : Nest (l.map .other) := by
  induction l with
  | nil => exact Nest.nil
  | cons a l ih => exact ih.other a

/-- What is before and after the mark that closes the last of `k + 1` open brackets. -/
def closeAt : ℕ → List (Mark α) → Option (List (Mark α) × List (Mark α))
  | _, [] => none
  | k, .other a :: l => (closeAt k l).map (Prod.map (.other a :: ·) id)
  | k, .opening :: l => (closeAt (k + 1) l).map (Prod.map (.opening :: ·) id)
  | 0, .closing :: l => some ([], l)
  | k + 1, .closing :: l => (closeAt k l).map (Prod.map (.closing :: ·) id)

/-- What closes `k` brackets, and is nested between them. -/
def Closes : ℕ → List (Mark α) → Prop
  | 0, b => Nest b
  | k + 1, b => ∃ n l, b = n ++ .closing :: l ∧ Nest n ∧ Closes k l

theorem Closes.other (a : α) (h : Closes k b) : Closes k (.other a :: b) := by
  cases k with
  | zero => exact Nest.other a h
  | succ k =>
    obtain ⟨n, l, rfl, hn, hl⟩ := h
    exact ⟨.other a :: n, l, rfl, hn.other a, hl⟩

theorem Closes.wrap (hn : Nest n) (h : Closes k b) :
    Closes k (.opening :: n ++ .closing :: b) := by
  cases k with
  | zero => exact Nest.wrap hn h
  | succ k =>
    obtain ⟨m, l, rfl, hm, hl⟩ := h
    refine ⟨.opening :: n ++ .closing :: m, l, ?_, hn.wrap hm, hl⟩
    simp

theorem closeAt_nest (hn : Nest n) (k : ℕ) (l : List (Mark α)) :
    closeAt k (n ++ l) = (closeAt k l).map (Prod.map (n ++ ·) id) := by
  induction hn generalizing k l with
  | nil =>
    change closeAt k l = (closeAt k l).map id
    rw [Option.map_id_fun, id]
  | other a _ ih =>
    rw [List.cons_append, closeAt, ih, Option.map_map]
    rfl
  | @wrap n m _ _ ihn ihm =>
    rw [List.append_assoc, List.cons_append, List.cons_append, closeAt, ihn, closeAt, ihm,
      Option.map_map, Option.map_map, Option.map_map]
    congr 1
    funext ⟨p, q⟩
    simp

theorem closeAt_closes (h : Closes k b) (r : List (Mark α)) :
    closeAt k (b ++ .closing :: r) = some (b, r) := by
  induction k generalizing b with
  | zero =>
    rw [closeAt_nest h, closeAt]
    simp
  | succ k ih =>
    obtain ⟨n, l, rfl, hn, hl⟩ := h
    rw [List.append_assoc, List.cons_append, closeAt_nest hn, closeAt, ih hl]
    simp

theorem closes_of_closeAt (h : closeAt k l = some (b, r)) :
    l = b ++ .closing :: r ∧ Closes k b := by
  induction l generalizing k b with
  | nil =>
    rw [closeAt] at h
    cases h
  | cons m l ih =>
    cases m with
    | other a =>
      rw [closeAt, Option.map_eq_some_iff] at h
      obtain ⟨⟨b, r⟩, hl, heq⟩ := h
      obtain ⟨rfl, rfl⟩ := Prod.mk.inj heq
      obtain ⟨rfl, hb⟩ := ih hl
      exact ⟨rfl, hb.other a⟩
    | opening =>
      rw [closeAt, Option.map_eq_some_iff] at h
      obtain ⟨⟨b, r⟩, hl, heq⟩ := h
      obtain ⟨rfl, rfl⟩ := Prod.mk.inj heq
      obtain ⟨rfl, n, m, rfl, hn, hm⟩ := ih hl
      exact ⟨rfl, hm.wrap hn⟩
    | closing =>
      cases k with
      | zero =>
        rw [closeAt] at h
        obtain ⟨rfl, rfl⟩ := Prod.mk.inj (Option.some.inj h)
        exact ⟨rfl, Nest.nil⟩
      | succ k =>
        rw [closeAt, Option.map_eq_some_iff] at h
        obtain ⟨⟨b, r⟩, hl, heq⟩ := h
        obtain ⟨rfl, rfl⟩ := Prod.mk.inj heq
        obtain ⟨rfl, hb⟩ := ih hl
        exact ⟨rfl, [], b, rfl, Nest.nil, hb⟩

/-- The bracket is closed after the nested text that starts there, and nowhere else. -/
theorem closeAt_eq_some_iff : closeAt 0 l = some (b, r) ↔ l = b ++ .closing :: r ∧ Nest b := by
  constructor
  · intro h
    exact closes_of_closeAt h
  · rintro ⟨rfl, hb⟩
    exact closeAt_closes (k := 0) hb r

end Mark

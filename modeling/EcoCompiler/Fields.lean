import Mathlib

/-! # The fields of a list

    The non-empty pieces of a list between separators.

    * `fields_append_cons` — a separator divides the fields;
    * `fields_intercalate` — fields that are joined are found again;
    * `getLast_fields_append` — the last field of an end is the end of the last field. -/

namespace Fields

variable {α : Type} {p : α → Bool} {l r : List α} {c : α}

/-- The non-empty pieces between the separators. -/
def fields (p : α → Bool) (l : List α) : List (List α) := (l.splitOnP p).filter (· ≠ [])

/-- A piece that may be a field. -/
def IsField (p : α → Bool) (l : List α) : Prop := l ≠ [] ∧ ∀ c ∈ l, p c = false

@[simp]
theorem fields_nil : fields p [] = [] := rfl

theorem fields_append_cons (hc : p c = true) (l r : List α) :
    fields p (l ++ c :: r) = fields p l ++ fields p r := by
  rw [fields, List.splitOnP_append_cons _ _ hc, List.filter_append]
  rfl

theorem fields_cons (hc : p c = true) (l : List α) : fields p (c :: l) = fields p l :=
  fields_append_cons hc [] l

theorem fields_singleton (hl : IsField p l) : fields p l = [l] := by
  rw [fields, List.splitOnP_eq_singleton hl.2]
  simp [hl.1]

theorem fields_seps (h : ∀ c ∈ r, p c = true) : fields p r = [] := by
  induction r with
  | nil => rfl
  | cons c r ih =>
    rw [fields_cons (h c (List.mem_cons_self ..))]
    exact ih fun d hd => h d (List.mem_cons_of_mem c hd)

/-- Separators at the start are dropped. -/
theorem fields_seps_append (h : ∀ c ∈ l, p c = true) (r : List α) :
    fields p (l ++ r) = fields p r := by
  induction l with
  | nil => rfl
  | cons c l ih =>
    rw [List.cons_append, fields_cons (h c (List.mem_cons_self ..))]
    exact ih fun d hd => h d (List.mem_cons_of_mem c hd)

/-- A field before a separator, or at the end. -/
theorem fields_append (hl : IsField p l) (hr : ∀ c ∈ r.head?, p c = true) :
    fields p (l ++ r) = l :: fields p r := by
  cases r with
  | nil => rw [List.append_nil, fields_singleton hl, fields_nil]
  | cons c r =>
    have hc := hr c rfl
    rw [fields_append_cons hc, fields_singleton hl, fields_cons hc]
    rfl

/-- A list up to its first separator, and the rest. -/
theorem exists_piece (p : α → Bool) (l : List α) : ∃ piece rest, l = piece ++ rest ∧
    (∀ c ∈ piece, p c = false) ∧ ∀ c ∈ rest.head?, p c = true := by
  induction l with
  | nil => exact ⟨[], [], rfl, by simp, by simp⟩
  | cons c l ih =>
    obtain ⟨piece, rest, heq, hpiece, hrest⟩ := ih
    by_cases hc : p c = true
    · refine ⟨[], c :: l, rfl, by simp, fun d hd => ?_⟩
      rwa [← Option.some.inj hd]
    · refine ⟨c :: piece, rest, by rw [heq, List.cons_append], fun d hd => ?_, hrest⟩
      rcases List.mem_cons.mp hd with rfl | hd
      · exact Bool.eq_false_iff.mpr hc
      · exact hpiece d hd

/-- What is not a separator goes before the first piece. -/
theorem fields_cons_of_not (hc : p c = false) (l : List α) :
    ∃ piece rest, l = piece ++ rest ∧ (∀ c ∈ rest.head?, p c = true) ∧ IsField p (c :: piece) ∧
      fields p (c :: l) = (c :: piece) :: fields p rest ∧
      fields p l = if piece = [] then fields p rest else piece :: fields p rest := by
  obtain ⟨piece, rest, rfl, hpiece, hrest⟩ := exists_piece p l
  have hfield : IsField p (c :: piece) := by
    refine ⟨List.cons_ne_nil _ _, fun d hd => ?_⟩
    rcases List.mem_cons.mp hd with rfl | hd
    · exact hc
    · exact hpiece d hd
  refine ⟨piece, rest, rfl, hrest, hfield, fields_append hfield hrest, ?_⟩
  split
  · next hnil => rw [hnil, List.nil_append]
  · next hne => exact fields_append ⟨hne, hpiece⟩ hrest

/-- A field stands in the list, up to a separator or the end. -/
theorem mem_fields (h : l ∈ fields p r) :
    IsField p l ∧ ∃ a b, r = a ++ (l ++ b) ∧ ∀ c ∈ b.head?, p c = true := by
  induction r with
  | nil => cases h
  | cons d r ih =>
    by_cases hd : p d = true
    · rw [fields_cons hd] at h
      obtain ⟨hl, a, b, rfl, hb⟩ := ih h
      exact ⟨hl, d :: a, b, rfl, hb⟩
    · obtain ⟨piece, rest, heq, hrest, hfield, hcons, hfields⟩ :=
        fields_cons_of_not (Bool.eq_false_iff.mpr hd) r
      rw [hcons] at h
      rcases List.mem_cons.mp h with rfl | hmem
      · exact ⟨hfield, [], rest, by rw [heq]; rfl, hrest⟩
      · have hmem' : l ∈ fields p r := by
          rw [hfields]
          split
          · exact hmem
          · exact List.mem_cons_of_mem _ hmem
        obtain ⟨hl, a, b, rfl, hb⟩ := ih hmem'
        exact ⟨hl, d :: a, b, rfl, hb⟩

theorem isField_of_mem (h : l ∈ fields p r) : IsField p l ∧ ∀ c ∈ l, c ∈ r := by
  obtain ⟨hl, a, b, rfl, -⟩ := mem_fields h
  exact ⟨hl, fun c hc => List.mem_append_right a (List.mem_append_left b hc)⟩

/-- The last field of an end of the list is an end of its last field. -/
theorem getLast_fields_append (l : List α) {e : List α} (h : e ∈ (fields p r).getLast?) :
    ∃ f ∈ (fields p (l ++ r)).getLast?, e <:+ f := by
  induction l with
  | nil => exact ⟨e, h, List.suffix_rfl⟩
  | cons c l ih =>
    obtain ⟨f, hf, hsuffix⟩ := ih
    by_cases hc : p c = true
    · exact ⟨f, by rw [List.cons_append, fields_cons hc]; exact hf, hsuffix⟩
    · obtain ⟨piece, rest, -, -, -, hcons, hfields⟩ :=
        fields_cons_of_not (Bool.eq_false_iff.mpr hc) (l ++ r)
      rw [List.cons_append, hcons]
      rw [hfields] at hf
      generalize fields p rest = ls at hf
      cases ls with
      | nil =>
        split at hf
        · cases hf
        · obtain rfl : piece = f := Option.some.inj hf
          exact ⟨c :: piece, rfl, hsuffix.trans (List.suffix_cons c piece)⟩
      | cons m ls =>
        refine ⟨f, ?_, hsuffix⟩
        rw [List.getLast?_cons_cons]
        split at hf
        · exact hf
        · rwa [List.getLast?_cons_cons] at hf

/-- Fields that are joined with a separator are found again. -/
theorem fields_intercalate (hc : p c = true) {ls : List (List α)} (h : ∀ l ∈ ls, IsField p l) :
    fields p ([c].intercalate ls) = ls := by
  induction ls with
  | nil => rfl
  | cons l ls ih =>
    have hrest := ih fun m hm => h m (List.mem_cons_of_mem l hm)
    have hl := h l (List.mem_cons_self ..)
    cases ls with
    | nil => simpa using fields_singleton hl
    | cons m ls =>
      rw [List.intercalate_cons_cons, List.append_assoc, List.singleton_append,
        fields_append_cons hc, hrest, fields_singleton hl]
      rfl

/-- Splitting twice is splitting at both. -/
theorem flatMap_splitOnP (q : α → Bool) (l : List α) :
    (l.splitOnP p).flatMap (List.splitOnP q) = l.splitOnP fun c => p c || q c := by
  induction l with
  | nil => rfl
  | cons c l ih =>
    obtain ⟨piece, ls, hsplit⟩ := List.exists_cons_of_ne_nil (List.splitOnP_ne_nil p l)
    rw [List.splitOnP_cons_eq_if_modifyHead, List.splitOnP_cons_eq_if_modifyHead, ← ih, hsplit]
    by_cases hp : p c = true
    · simp [hp]
    · obtain ⟨first, rest, hfirst⟩ := List.exists_cons_of_ne_nil (List.splitOnP_ne_nil q piece)
      by_cases hq : q c = true
      · simp [hp, hq, List.splitOnP_cons_eq_if_modifyHead]
      · simp [hp, hq, List.splitOnP_cons_eq_if_modifyHead, hfirst]

end Fields

import Mathlib

/-! # Dictionaries, independent of any program

    A dictionary over ordered keys is its list of entries in increasing key order.

    * `get_eq_some_iff`: looking a key up is finding its entry;
    * `get_insert`: an insertion changes its own key only;
    * `toList_fromList`: a list with increasing keys is the dictionary of its entries. -/

/-- A dictionary: its entries, with increasing keys. -/
structure Dict (κ α : Type) [LinearOrder κ] where
  entries : List (κ × α)
  increasing : entries.Pairwise (fun a b => a.1 < b.1)

namespace Dict

variable {κ α : Type} [LinearOrder κ]

/-- `Dict.empty`. -/
def empty : Dict κ α := ⟨[], List.Pairwise.nil⟩

/-- `Dict.toList`. -/
def toList (d : Dict κ α) : List (κ × α) := d.entries

/-- `Dict.get`. -/
def get (d : Dict κ α) (k : κ) : Option α := d.entries.lookup k

/-- The entries with one more, in its place. -/
def insertEntry (k : κ) (v : α) : List (κ × α) → List (κ × α)
  | [] => [(k, v)]
  | e :: es =>
    if k < e.1 then (k, v) :: e :: es
    else if k = e.1 then (k, v) :: es
    else e :: insertEntry k v es

/-- What stands in a list after an insertion is new or was there. -/
theorem mem_insertEntry {k : κ} {v : α} {es : List (κ × α)} {e : κ × α}
    (h : e ∈ insertEntry k v es) : e = (k, v) ∨ e ∈ es := by
  induction es with
  | nil => exact Or.inl (List.mem_singleton.mp h)
  | cons f es ih =>
    rw [insertEntry] at h
    split at h
    · exact List.mem_cons.mp h
    · split at h
      · rcases List.mem_cons.mp h with rfl | h
        · exact Or.inl rfl
        · exact Or.inr (List.mem_cons_of_mem _ h)
      · rcases List.mem_cons.mp h with rfl | h
        · exact Or.inr (List.mem_cons_self ..)
        · rcases ih h with h | h
          · exact Or.inl h
          · exact Or.inr (List.mem_cons_of_mem _ h)

/-- An insertion keeps the keys increasing. -/
theorem increasing_insertEntry {es : List (κ × α)}
    (h : es.Pairwise (fun a b => a.1 < b.1)) (k : κ) (v : α) :
    (insertEntry k v es).Pairwise (fun a b => a.1 < b.1) := by
  induction es with
  | nil => exact List.pairwise_singleton _ _
  | cons e es ih =>
    obtain ⟨hhead, htail⟩ := List.pairwise_cons.mp h
    rw [insertEntry]
    split
    · next hlt =>
      refine List.pairwise_cons.mpr ⟨?_, h⟩
      intro f hf
      rcases List.mem_cons.mp hf with rfl | hf
      · exact hlt
      · exact lt_trans hlt (hhead f hf)
    · next hge =>
      split
      · next heq =>
        refine List.pairwise_cons.mpr ⟨?_, htail⟩
        intro f hf
        rw [heq]
        exact hhead f hf
      · next hne =>
        refine List.pairwise_cons.mpr ⟨?_, ih htail⟩
        intro f hf
        rcases mem_insertEntry hf with rfl | hf
        · exact lt_of_le_of_ne (not_lt.mp hge) (Ne.symm hne)
        · exact hhead f hf

/-- `Dict.insert`. -/
def insert (k : κ) (v : α) (d : Dict κ α) : Dict κ α :=
  ⟨insertEntry k v d.entries, increasing_insertEntry d.increasing k v⟩

/-- `Dict.fromList`: a later entry replaces an earlier one. -/
def fromList (es : List (κ × α)) : Dict κ α :=
  es.foldl (fun d e => d.insert e.1 e.2) empty

/-! ## Looking up -/

@[simp] theorem get_empty (k : κ) : (empty : Dict κ α).get k = none := rfl

private theorem lookup_cons_eq (e : κ × α) (es : List (κ × α)) (j : κ) :
    (e :: es).lookup j = if j = e.1 then some e.2 else es.lookup j := by
  obtain ⟨k, v⟩ := e
  rw [List.lookup_cons]
  by_cases hj : j = k
  · simp [hj]
  · have hne : (j == k) = false := by simpa using hj
    rw [hne, if_neg hj]

/-- With increasing keys, looking up finds exactly the entries. -/
private theorem lookup_eq_some_iff {es : List (κ × α)}
    (h : es.Pairwise (fun a b => a.1 < b.1)) {k : κ} {v : α} :
    es.lookup k = some v ↔ (k, v) ∈ es := by
  induction es with
  | nil => simp
  | cons e es ih =>
    obtain ⟨hhead, htail⟩ := List.pairwise_cons.mp h
    obtain ⟨k', v'⟩ := e
    by_cases hk : k = k'
    · have hnot : (k, v) ∉ es := by
        intro hmem
        exact absurd (hhead _ hmem) (by simp [hk])
      rw [lookup_cons_eq, if_pos hk, List.mem_cons, or_iff_left hnot, Option.some_inj,
        Prod.mk.injEq, and_iff_right hk, eq_comm]
    · rw [lookup_cons_eq, if_neg hk, List.mem_cons]
      simp [ih htail, hk]

/-- Looking a key up is finding its entry. -/
theorem get_eq_some_iff {d : Dict κ α} {k : κ} {v : α} :
    d.get k = some v ↔ (k, v) ∈ d.toList :=
  lookup_eq_some_iff d.increasing

/-- A key is absent when no entry has it. -/
theorem get_eq_none_iff {d : Dict κ α} {k : κ} :
    d.get k = none ↔ ∀ v, (k, v) ∉ d.toList := by
  constructor
  · intro h v hmem
    rw [get_eq_some_iff.mpr hmem] at h
    cases h
  · intro h
    cases hget : d.get k with
    | none => rfl
    | some v => exact absurd (get_eq_some_iff.mp hget) (h v)

/-- After an insertion the new key gives the new value and the others what they gave. -/
private theorem lookup_insertEntry {es : List (κ × α)}
    (h : es.Pairwise (fun a b => a.1 < b.1)) (k : κ) (v : α) (j : κ) :
    (insertEntry k v es).lookup j = if j = k then some v else es.lookup j := by
  induction es with
  | nil => exact lookup_cons_eq (k, v) [] j
  | cons e es ih =>
    obtain ⟨-, htail⟩ := List.pairwise_cons.mp h
    rw [insertEntry]
    split
    · exact lookup_cons_eq (k, v) (e :: es) j
    · split
      · next heq =>
        rw [lookup_cons_eq, lookup_cons_eq, ← heq]
        by_cases hj : j = k <;> simp [hj]
      · next hne =>
        rw [lookup_cons_eq, lookup_cons_eq, ih htail]
        by_cases hj : j = e.1
        · have hjk : j ≠ k := fun hk => hne (hk.symm.trans hj)
          simp [hj, hj ▸ hjk]
        · simp [hj]

/-- An insertion changes its own key only. -/
theorem get_insert (d : Dict κ α) (k : κ) (v : α) (j : κ) :
    (d.insert k v).get j = if j = k then some v else d.get j :=
  lookup_insertEntry d.increasing k v j

@[simp] theorem get_insert_self (d : Dict κ α) (k : κ) (v : α) :
    (d.insert k v).get k = some v := by
  rw [get_insert, if_pos rfl]

theorem get_insert_of_ne (d : Dict κ α) {k j : κ} (h : j ≠ k) (v : α) :
    (d.insert k v).get j = d.get j := by
  rw [get_insert, if_neg h]

/-! ## Lists with increasing keys -/

/-- A key above all others goes to the end. -/
private theorem insertEntry_last {es : List (κ × α)} {k : κ} {v : α}
    (h : ∀ e ∈ es, e.1 < k) : insertEntry k v es = es ++ [(k, v)] := by
  induction es with
  | nil => rfl
  | cons e es ih =>
    have he := h e (List.mem_cons_self ..)
    rw [insertEntry, if_neg (not_lt.mpr he.le), if_neg he.ne', List.cons_append,
      ih (fun f hf => h f (List.mem_cons_of_mem _ hf))]

/-- Inserting increasing entries appends them. -/
private theorem foldl_insert {es : List (κ × α)} (d : Dict κ α)
    (h : (d.entries ++ es).Pairwise (fun a b => a.1 < b.1)) :
    (es.foldl (fun d e => d.insert e.1 e.2) d).entries = d.entries ++ es := by
  induction es generalizing d with
  | nil => simp
  | cons e es ih =>
    have hlast : (d.insert e.1 e.2).entries = d.entries ++ [e] := by
      refine insertEntry_last ?_
      intro f hf
      exact (List.pairwise_append.mp h).2.2 f hf e (List.mem_cons_self ..)
    have happ : (d.insert e.1 e.2).entries ++ es = d.entries ++ e :: es := by
      rw [hlast, List.append_assoc, List.singleton_append]
    rw [List.foldl_cons, ih _ (by rw [happ]; exact h), happ]

/-- A list with increasing keys is the list of entries of its dictionary. -/
theorem toList_fromList {es : List (κ × α)} (h : es.Pairwise (fun a b => a.1 < b.1)) :
    (fromList es).toList = es := by
  have hentries : (fromList es).entries = [] ++ es :=
    foldl_insert (empty : Dict κ α) (by simpa [empty] using h)
  rw [toList, hentries, List.nil_append]

/-- A key of the dictionary of some entries is the key of one. -/
theorem mem_of_get_fromList {es : List (κ × α)} {k : κ} (h : (fromList es).get k ≠ none) :
    k ∈ es.map Prod.fst := by
  have hfold : ∀ (es : List (κ × α)) (d : Dict κ α),
      (es.foldl (fun d e => d.insert e.1 e.2) d).get k ≠ none →
      k ∈ es.map Prod.fst ∨ d.get k ≠ none := by
    intro es
    induction es with
    | nil => exact fun d h => Or.inr h
    | cons e es ih =>
      intro d h
      rw [List.map_cons, List.mem_cons]
      rcases ih _ h with h | h
      · exact Or.inl (Or.inr h)
      · rw [get_insert] at h
        split at h
        · next heq => exact Or.inl (Or.inl heq)
        · exact Or.inr h
  rcases hfold es empty h with h | h
  · exact h
  · exact absurd (get_empty k) h

/-- The dictionary without its first entry. -/
theorem get_fromList_tail {d : Dict κ α} {k : κ} {v : α} {es : List (κ × α)}
    (h : d.toList = (k, v) :: es) (j : κ) :
    (fromList es).get j = if j = k then none else d.get j := by
  have hinc : ((k, v) :: es).Pairwise (fun a b => a.1 < b.1) := by
    rw [← h]
    exact d.increasing
  obtain ⟨hhead, htail⟩ := List.pairwise_cons.mp hinc
  have hlist := toList_fromList htail
  by_cases hj : j = k
  · rw [if_pos hj, get_eq_none_iff, hlist]
    intro w hw
    exact absurd (hhead _ hw) (by simp [hj])
  · rw [if_neg hj]
    show (fromList es).toList.lookup j = d.toList.lookup j
    rw [hlist, h, lookup_cons_eq, if_neg hj]

/-- A dictionary without entries has no key. -/
theorem get_of_toList_nil {d : Dict κ α} (h : d.toList = []) (j : κ) : d.get j = none := by
  show d.toList.lookup j = none
  rw [h]
  rfl

/-! ## Keeping a part, and taking dictionaries together -/

variable {β : Type}

/-- `Dict.filter`. -/
def filter (p : κ → α → Bool) (d : Dict κ α) : Dict κ α :=
  ⟨d.entries.filter (fun e => p e.1 e.2), d.increasing.filter _⟩

/-- `Dict.map`. -/
def map (f : κ → α → β) (d : Dict κ α) : Dict κ β :=
  ⟨d.entries.map (fun e => (e.1, f e.1 e.2)), List.pairwise_map.mpr d.increasing⟩

/-- `Dict.member`. -/
def member (k : κ) (d : Dict κ α) : Bool := (d.get k).isSome

/-- `Dict.remove`. -/
def remove (k : κ) (d : Dict κ α) : Dict κ α := d.filter (fun j _ => j ≠ k)

/-- `Dict.union`: the first one's entry where both have the key. -/
def union (a b : Dict κ α) : Dict κ α := a.entries.foldl (fun d e => d.insert e.1 e.2) b

/-- `Dict.intersect`: the entries of the first whose key the second has. -/
def intersect (a : Dict κ α) (b : Dict κ β) : Dict κ α := a.filter (fun k _ => b.member k)

/-- `Dict.diff`: the entries of the first whose key the second does not have. -/
def diff (a : Dict κ α) (b : Dict κ β) : Dict κ α := a.filter (fun k _ => !b.member k)

/-- A filter keeps the values it holds of. -/
theorem get_filter (p : κ → α → Bool) (d : Dict κ α) (k : κ) :
    (d.filter p).get k = (d.get k).filter (p k) := by
  ext v
  rw [get_eq_some_iff, Option.filter_eq_some_iff, get_eq_some_iff]
  exact List.mem_filter

/-- A map changes every value under its key. -/
theorem get_map (f : κ → α → β) (d : Dict κ α) (k : κ) :
    (d.map f).get k = (d.get k).map (f k) := by
  ext v
  rw [get_eq_some_iff, Option.map_eq_some_iff]
  constructor
  · intro h
    obtain ⟨e, he, heq⟩ := List.mem_map.mp h
    cases heq
    exact ⟨e.2, get_eq_some_iff.mpr he, rfl⟩
  · rintro ⟨a, ha, rfl⟩
    exact List.mem_map.mpr ⟨(k, a), get_eq_some_iff.mp ha, rfl⟩

/-- Removing takes one key away. -/
theorem get_remove (d : Dict κ α) (k j : κ) :
    (d.remove k).get j = if j = k then none else d.get j := by
  rw [remove, get_filter]
  by_cases h : j = k <;> cases d.get j <;> simp [h]

/-- An intersection has the first dictionary's values at the common keys. -/
theorem get_intersect (a : Dict κ α) (b : Dict κ β) (k : κ) :
    (a.intersect b).get k = if b.member k then a.get k else none := by
  rw [intersect, get_filter]
  cases b.member k <;> cases a.get k <;> rfl

/-- A difference has the first dictionary's values at its own keys. -/
theorem get_diff (a : Dict κ α) (b : Dict κ β) (k : κ) :
    (a.diff b).get k = if b.member k then none else a.get k := by
  rw [diff, get_filter]
  cases b.member k <;> cases a.get k <;> rfl

/-- A union prefers the first dictionary's values. -/
theorem get_union (a b : Dict κ α) (k : κ) : (a.union b).get k = (a.get k).or (b.get k) := by
  -- an entry of the list stays, for no later one has its key
  have hfold : ∀ (es : List (κ × α)) (d : Dict κ α), es.Pairwise (fun a b => a.1 < b.1) →
      (es.foldl (fun d e => d.insert e.1 e.2) d).get k = (es.lookup k).or (d.get k) := by
    intro es
    induction es with
    | nil => intro d _; rfl
    | cons e es ih =>
      intro d h
      obtain ⟨hhead, htail⟩ := List.pairwise_cons.mp h
      rw [List.foldl_cons, ih _ htail, get_insert, lookup_cons_eq]
      by_cases hk : k = e.1
      · have hnone : es.lookup k = none := by
          cases hlookup : es.lookup k with
          | none => rfl
          | some v =>
            have hlt := hhead _ ((lookup_eq_some_iff htail).mp hlookup)
            exact absurd hlt (by simp [hk])
        rw [hnone, if_pos hk, if_pos hk]
        rfl
      · rw [if_neg hk, if_neg hk]
  exact hfold a.entries b a.increasing

/-- Members are the keys with a value. -/
theorem member_iff {d : Dict κ α} {k : κ} : d.member k = true ↔ ∃ v, d.get k = some v :=
  Option.isSome_iff_exists

theorem not_member_iff {d : Dict κ α} {k : κ} : d.member k = false ↔ d.get k = none := by
  rw [member, Option.isSome_eq_false_iff, Option.isNone_iff_eq_none]

theorem get_diff_eq_some_iff {a : Dict κ α} {b : Dict κ β} {k : κ} {v : α} :
    (a.diff b).get k = some v ↔ a.get k = some v ∧ b.get k = none := by
  rw [get_diff, ← not_member_iff]
  cases b.member k <;> simp

theorem get_intersect_eq_some_iff {a : Dict κ α} {b : Dict κ β} {k : κ} {v : α} :
    (a.intersect b).get k = some v ↔ a.get k = some v ∧ b.get k ≠ none := by
  rw [get_intersect, Ne, ← not_member_iff]
  cases b.member k <;> simp

theorem get_union_eq_none_iff {a b : Dict κ α} {k : κ} :
    (a.union b).get k = none ↔ a.get k = none ∧ b.get k = none := by
  rw [get_union, Option.or_eq_none_iff]

end Dict

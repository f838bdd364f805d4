import Mathlib

/-! # Searching a text for a word

    Two searches for the occurrences of a word, from the left: one looks at every position,
    the other skips ahead by a table that is indexed by a key of the symbol under the word's
    last place.  After an occurrence each goes on a given number of positions further.

    * `Cuts` — the positions a search from the left stops at;
    * `scan_cuts`, `search_cuts` — both searches stop at them. -/

namespace Horspool

variable {α : Type}

/-- The word occurs at a position of the text. -/
def Occurs (pat text : List α) (i : ℕ) : Prop := pat <+: text.drop i

theorem occurs_iff {pat text : List α} {i : ℕ} :
    Occurs pat text i ↔ ∀ p < pat.length, text[i + p]? = pat[p]? := by
  rw [Occurs, List.prefix_iff_getElem?]
  constructor
  · intro h p hp
    rw [← List.getElem?_drop, h p hp, List.getElem?_eq_getElem hp]
  · intro h p hp
    rw [List.getElem?_drop, h p hp, List.getElem?_eq_getElem hp]

theorem Occurs.le {pat text : List α} {i : ℕ} (h : Occurs pat text i) (hpat : pat ≠ []) :
    i + pat.length ≤ text.length := by
  have hpos := List.length_pos_iff.mpr hpat
  have hlen := List.IsPrefix.length_le h
  rw [List.length_drop] at hlen
  omega

/-- Positions from the left, each the first from where the search goes on. -/
inductive Cuts (step : ℕ) (pat text : List α) : ℕ → List ℕ → Prop where
  | none {i : ℕ} (hnone : ∀ j ≥ i, ¬ Occurs pat text j) : Cuts step pat text i []
  | next {i p : ℕ} {ps : List ℕ} (hle : i ≤ p) (hp : Occurs pat text p)
      (hfirst : ∀ j, i ≤ j → j < p → ¬ Occurs pat text j)
      (rest : Cuts step pat text (p + step) ps) : Cuts step pat text i (p :: ps)

variable {step : ℕ} {pat text : List α}

/-- Positions where the word does not occur may be passed. -/
theorem Cuts.skip {i k : ℕ} {ps : List ℕ} (h : Cuts step pat text k ps) (hik : i ≤ k)
    (hnone : ∀ j, i ≤ j → j < k → ¬ Occurs pat text j) : Cuts step pat text i ps := by
  cases h with
  | none hrest =>
    refine .none fun j hj => ?_
    rcases Nat.lt_or_ge j k with hlt | hge
    · exact hnone j hj hlt
    · exact hrest j hge
  | next hle hp hfirst rest =>
    refine .next (hik.trans hle) hp (fun j hj hjp => ?_) rest
    rcases Nat.lt_or_ge j k with hlt | hge
    · exact hnone j hj hlt
    · exact hfirst j hge hjp

/-- Past the end no word occurs. -/
theorem Cuts.end {i : ℕ} (hpat : pat ≠ []) (h : ¬ i + pat.length ≤ text.length) :
    Cuts step pat text i [] := by
  refine .none fun j hj hocc => h ?_
  have hle := hocc.le hpat
  omega

/-- The positions of a search that goes on by one are all that there are, in order. -/
theorem Cuts.all {i : ℕ} {ps : List ℕ} (h : Cuts 1 pat text i ps) :
    ps.Pairwise (· < ·) ∧ ∀ j, j ∈ ps ↔ i ≤ j ∧ Occurs pat text j := by
  induction h with
  | none hnone =>
    refine ⟨List.Pairwise.nil, fun j => iff_of_false List.not_mem_nil ?_⟩
    rintro ⟨hj, hocc⟩
    exact hnone j hj hocc
  | @next i p ps hle hp hfirst rest ih =>
    obtain ⟨sorted, mem⟩ := ih
    refine ⟨List.pairwise_cons.mpr ⟨fun j hj => ?_, sorted⟩, fun j => ?_⟩
    · have hle := ((mem j).mp hj).1
      omega
    · rw [List.mem_cons, mem]
      constructor
      · rintro (rfl | ⟨hj, hocc⟩)
        · exact ⟨hle, hp⟩
        · exact ⟨by omega, hocc⟩
      · rintro ⟨hj, hocc⟩
        rcases Nat.lt_trichotomy j p with hlt | rfl | hgt
        · exact absurd hocc (hfirst j hj hlt)
        · exact Or.inl rfl
        · exact Or.inr ⟨by omega, hocc⟩

/-! ## Looking at every position -/

section

variable [DecidableEq α]

/-- The comparison that stops at the first difference. -/
def agrees (pat text : List α) (i : ℕ) : Bool :=
  (List.range pat.length).all fun j => text[i + j]? = pat[j]?

theorem agrees_iff {i : ℕ} : agrees pat text i = true ↔ Occurs pat text i := by
  rw [agrees, List.all_eq_true, occurs_iff]
  simp

/-- The search by comparison alone. -/
def scan (pat text : List α) (hstep : 0 < step) (i : ℕ) : List ℕ :=
  if i + pat.length ≤ text.length then
    if agrees pat text i then i :: scan pat text hstep (i + step)
    else scan pat text hstep (i + 1)
  else []
termination_by text.length + 1 - i

theorem scan_cuts (hpat : pat ≠ []) (hstep : 0 < step) (i : ℕ) :
    Cuts step pat text i (scan pat text hstep i) := by
  induction i using scan.induct pat text hstep with
  | case1 i hle hocc ih =>
    rw [scan, if_pos hle, if_pos hocc]
    refine .next le_rfl (agrees_iff.mp hocc) (fun j hj hji => ?_) ih
    omega
  | case2 i hle hocc ih =>
    rw [scan, if_pos hle, if_neg hocc]
    refine ih.skip (Nat.le_succ i) fun j hj hji => ?_
    obtain rfl : j = i := by omega
    rwa [agrees_iff] at hocc
  | case3 i hlt =>
    rw [scan, if_neg hlt]
    exact .end hpat hlt

end

/-! ## Skipping ahead -/

/-- Which entry of the table stands for a symbol. -/
structure Keys (α : Type) where
  key : α → ℕ
  slots : ℕ
  key_lt : ∀ c, key c < slots

variable (keys : Keys α)

/-- How far to go on, by the key of the symbol under the word's last place. -/
def skipTable (pat : List α) : List ℕ :=
  (List.range (pat.length - 1)).foldl
    (fun skip i =>
      match pat[i]? with
      | some c => skip.set (keys.key c) (pat.length - 1 - i)
      | none => skip)
    (List.replicate keys.slots pat.length)

/-- The table after the first places of the word. -/
structure Table (pat : List α) (k : ℕ) (skip : List ℕ) : Prop where
  length : skip.length = keys.slots
  pos : ∀ v ∈ skip, 0 < v ∧ v ≤ pat.length
  le : ∀ p < k, ∀ c, pat[p]? = some c →
    ∃ v, skip[keys.key c]? = some v ∧ v ≤ pat.length - 1 - p

theorem skipTable_table (hpat : pat ≠ []) :
    Table keys pat (pat.length - 1) (skipTable keys pat) := by
  have hpos := List.length_pos_iff.mpr hpat
  rw [skipTable]
  -- after `k` turns the table is right for the first `k` places of the pattern
  suffices h : ∀ k ≤ pat.length - 1, Table keys pat k ((List.range k).foldl
      (fun skip i =>
        match pat[i]? with
        | some c => skip.set (keys.key c) (pat.length - 1 - i)
        | none => skip)
      (List.replicate keys.slots pat.length)) from h _ le_rfl
  intro k hk
  induction k with
  | zero =>
    refine ⟨List.length_replicate, fun v hv => ?_, fun p hp => absurd hp (Nat.not_lt_zero p)⟩
    rw [List.eq_of_mem_replicate hv]
    exact ⟨hpos, le_rfl⟩
  | succ k ih =>
    have h := ih (by omega)
    have hlt : k < pat.length := by omega
    rw [List.range_succ, List.foldl_append, List.foldl_cons, List.foldl_nil,
      List.getElem?_eq_getElem hlt]
    dsimp only
    refine ⟨by rw [List.length_set, h.length], fun v hv => ?_, fun p hp c hc => ?_⟩
    · rcases List.mem_or_eq_of_mem_set hv with hv | rfl
      · exact h.pos v hv
      · omega
    · by_cases hkey : keys.key pat[k] = keys.key c
      · refine ⟨pat.length - 1 - k, ?_, by omega⟩
        rw [hkey, List.getElem?_set_self]
        rw [h.length]
        exact keys.key_lt c
      · rw [List.getElem?_set_ne hkey]
        have hpk : p ≠ k := by
          rintro rfl
          rw [List.getElem?_eq_getElem hlt] at hc
          exact hkey (by rw [Option.some.inj hc])
        exact h.le p (by omega) c hc

/-- The entry for the symbol at a position. -/
def skipAt (skip : List ℕ) (text : List α) (i : ℕ) : ℕ :=
  match text[i]? with
  | some c => skip[keys.key c]?.getD 0
  | none => 0

theorem skipAt_pos (hpat : pat ≠ []) {text : List α} {i : ℕ} (hi : i < text.length) :
    0 < skipAt keys (skipTable keys pat) text i := by
  have table := skipTable_table keys hpat
  have hkey : keys.key text[i] < (skipTable keys pat).length := by
    rw [table.length]
    exact keys.key_lt _
  rw [skipAt, List.getElem?_eq_getElem hi]
  dsimp only
  rw [List.getElem?_eq_getElem hkey]
  exact (table.pos _ (List.getElem_mem _)).1

/-- Between a position and the one that the table leads to, the word does not occur. -/
theorem skipAt_safe (hpat : pat ≠ []) {i j : ℕ} (hij : i < j)
    (hj : j < i + skipAt keys (skipTable keys pat) text (i + pat.length - 1)) :
    ¬ Occurs pat text j := by
  intro hocc
  have table := skipTable_table keys hpat
  have hpos := List.length_pos_iff.mpr hpat
  have hle := hocc.le hpat
  have hlt : i + pat.length - 1 < text.length := by omega
  have hkey : keys.key text[i + pat.length - 1] < (skipTable keys pat).length := by
    rw [table.length]
    exact keys.key_lt _
  rw [skipAt, List.getElem?_eq_getElem hlt] at hj
  dsimp only at hj
  rw [List.getElem?_eq_getElem hkey, Option.getD_some] at hj
  have hmost := (table.pos _ (List.getElem_mem hkey)).2
  -- the symbol would stand under an earlier place of the word, from where the table leads here
  have hplace : pat[pat.length - 1 - (j - i)]? = some text[i + pat.length - 1] := by
    rw [← occurs_iff.mp hocc _ (by omega), ← List.getElem?_eq_getElem hlt]
    congr 1
    omega
  obtain ⟨v, hv, hle'⟩ := table.le _ (by omega) _ hplace
  rw [List.getElem?_eq_getElem hkey] at hv
  obtain rfl := Option.some.inj hv
  omega

variable [DecidableEq α]

/-- The comparison from the last place on: where it stops. -/
def matchBack (pat text : List α) (i : ℕ) : ℕ → ℕ
  | 0 => 0
  | j + 1 => if text[i + j]? = pat[j]? then matchBack pat text i j else j + 1

theorem matchBack_eq_zero_iff {i k : ℕ} :
    matchBack pat text i k = 0 ↔ ∀ p < k, text[i + p]? = pat[p]? := by
  induction k with
  | zero => simp [matchBack]
  | succ k ih =>
    rw [matchBack]
    split
    · next h =>
      rw [ih]
      constructor
      · intro hall p hp
        rcases Nat.lt_succ_iff_lt_or_eq.mp hp with hp | rfl
        · exact hall p hp
        · exact h
      · intro hall p hp
        exact hall p (by omega)
    · next h =>
      refine iff_of_false (Nat.succ_ne_zero k) fun hall => h ?_
      exact hall k (Nat.lt_succ_self k)

/-- The search that skips ahead. -/
def search (pat text : List α) (hpat : pat ≠ []) (hstep : 0 < step) (i : ℕ) : List ℕ :=
  if _h : i + pat.length ≤ text.length then
    if matchBack pat text i pat.length = 0 then i :: search pat text hpat hstep (i + step)
    else
      search pat text hpat hstep (i + skipAt keys (skipTable keys pat) text (i + pat.length - 1))
  else []
termination_by text.length + 1 - i
decreasing_by
  · omega
  · have hpos := List.length_pos_iff.mpr hpat
    have hlt : i + pat.length - 1 < text.length := by omega
    have hskip := skipAt_pos keys hpat hlt
    omega

theorem search_cuts (hpat : pat ≠ []) (hstep : 0 < step) (i : ℕ) :
    Cuts step pat text i (search keys pat text hpat hstep i) := by
  induction i using search.induct keys pat text hpat hstep with
  | case1 i hle hocc ih =>
    rw [search, dif_pos hle, if_pos hocc]
    rw [matchBack_eq_zero_iff, ← occurs_iff] at hocc
    refine .next le_rfl hocc (fun j hj hji => ?_) ih
    omega
  | case2 i hle hocc ih =>
    rw [search, dif_pos hle, if_neg hocc]
    rw [matchBack_eq_zero_iff, ← occurs_iff] at hocc
    refine ih.skip (Nat.le_add_right ..) fun j hj hlt => ?_
    rcases Nat.eq_or_lt_of_le hj with rfl | hij
    · exact hocc
    · exact skipAt_safe keys hpat hij hlt
  | case3 i hlt =>
    rw [search, dif_neg hlt]
    exact .end hpat hlt

/-! ## Pieces -/

/-- A text cut at the occurrences of a word from the left: before each, nothing of the word
    has started that is an occurrence. -/
inductive Splits (pat : List α) : List α → List (List α) → Prop where
  | last {text : List α} (hnone : ∀ j, ¬ Occurs pat text j) : Splits pat text [text]
  | cut {a rest : List α} {pieces : List (List α)}
      (hfirst : ∀ j < a.length, ¬ Occurs pat (a ++ (pat ++ rest)) j)
      (more : Splits pat rest pieces) : Splits pat (a ++ (pat ++ rest)) (a :: pieces)

omit [DecidableEq α] in
/-- A renaming of the symbols that keeps them apart keeps the cuts. -/
theorem Splits.map {β : Type} {f : α → β} (hf : f.Injective) {ps : List (List α)}
    (h : Splits pat text ps) : Splits (pat.map f) (text.map f) (ps.map (List.map f)) := by
  have occurs_map : ∀ (word : List α) (j : ℕ),
      Occurs (pat.map f) (word.map f) j ↔ Occurs pat word j := by
    intro word j
    rw [Occurs, ← List.map_drop, List.prefix_map_iff_of_injective hf, Occurs]
  induction h with
  | last hnone =>
    refine .last fun j hocc => hnone j ?_
    rwa [occurs_map] at hocc
  | @cut a rest pieces hfirst more ih =>
    rw [List.map_append, List.map_append]
    refine .cut (fun j hj hocc => hfirst j ?_ ?_) ih
    · rwa [List.length_map] at hj
    · rwa [← List.map_append, ← List.map_append, occurs_map] at hocc

/-- The pieces between the cuts. -/
def pieces (k : ℕ) (text : List α) : ℕ → List ℕ → List (List α)
  | start, [] => [text.drop start]
  | start, p :: ps => (text.drop start).take (p - start) :: pieces k text (p + k) ps

omit [DecidableEq α] in
/-- The cuts of a search that goes on after each occurrence are those of the text. -/
theorem Cuts.splits {i : ℕ} {ps : List ℕ} (h : Cuts pat.length pat text i ps) :
    Splits pat (text.drop i) (pieces pat.length text i ps) := by
  induction h with
  | @none i hnone =>
    refine .last fun j hocc => hnone (i + j) (Nat.le_add_right ..) ?_
    rwa [Occurs, List.drop_drop] at hocc
  | @next i p ps hle hp hfirst rest ih =>
    have hsplit : text.drop i
        = (text.drop i).take (p - i) ++ (pat ++ text.drop (p + pat.length)) := by
      obtain ⟨r, hr⟩ := hp
      have hrest : text.drop (p + pat.length) = r := by
        rw [← List.drop_drop, ← hr, List.drop_left]
      rw [hrest, hr]
      calc text.drop i = (text.drop i).take (p - i) ++ (text.drop i).drop (p - i) :=
            (List.take_append_drop ..).symm
        _ = (text.drop i).take (p - i) ++ text.drop p := by
            rw [List.drop_drop, Nat.add_sub_cancel' hle]
    have hcut : Splits pat ((text.drop i).take (p - i) ++ (pat ++ text.drop (p + pat.length)))
        ((text.drop i).take (p - i) :: pieces pat.length text (p + pat.length) ps) := by
      refine .cut (fun j hj hocc => ?_) ih
      rw [← hsplit, Occurs, List.drop_drop] at hocc
      rw [List.length_take] at hj
      exact hfirst (i + j) (Nat.le_add_right ..) (by omega) hocc
    rw [← hsplit] at hcut
    exact hcut

omit [DecidableEq α] in
/-- The word between the pieces gives the text back. -/
theorem Splits.join {ps : List (List α)} (h : Splits pat text ps) : ps ≠ [] ∧
    pat.intercalate ps = text := by
  induction h with
  | last => simp [List.intercalate]
  | @cut a rest pieces _ _ ih =>
    obtain ⟨hne, heq⟩ := ih
    obtain ⟨b, more, rfl⟩ := List.exists_cons_of_ne_nil hne
    refine ⟨List.cons_ne_nil _ _, ?_⟩
    rw [← heq]
    simp [List.intercalate]

end Horspool

import EcoCompiler.Tiling

/-! # What happens to extents of memory

    Extents are released, discarded while they are free, and reused whole; a history lists
    the events with the newest first.

    * `FreeLedger.free` — the extents that are released and not reused since;
    * `Legal` — what is released is apart from everything free, and what is reused or
      discarded is free;
    * `Legal.not_free_of_reused` — a reused position lies in nothing free until something that
      covers it is released. -/

namespace FreeLedger

open Tiling

instance (r r' : Range) : Decidable (Apart r r') := inferInstanceAs (Decidable (_ ∨ _))

/-- An event in the life of an extent. -/
inductive Op where
  | released (r : Range)
  | reused (r : Range)
  | discarded (r : Range)
  deriving DecidableEq

/-- The extents that are free. -/
def free : List Op → List Range
  | [] => []
  | .released r :: l => r :: free l
  | .reused r :: l => (free l).erase r
  | .discarded _ :: l => free l

/-- What is released is not empty and apart from what is free; what is reused or discarded is
    free. -/
def Legal : List Op → Prop
  | [] => True
  | .released r :: l => Legal l ∧ 0 < r.size ∧ ∀ f ∈ free l, Apart f r
  | .reused r :: l => Legal l ∧ r ∈ free l
  | .discarded r :: l => Legal l ∧ r ∈ free l

/-- Nothing but what meets no position of `r` has been discarded since `r` was released. -/
def Untouched (r : Range) : List Op → Prop
  | [] => False
  | .released r' :: l => r' = r ∨ Untouched r l
  | .reused r' :: l => r' ≠ r ∧ Untouched r l
  | .discarded r' :: l => Apart r' r ∧ Untouched r l

theorem not_apart_self {r : Range} (h : 0 < r.size) : ¬ Apart r r := by
  rintro (h' | h') <;> rw [Range.stop] at h' <;> omega

/-- A position lies in one of two ranges that are apart. -/
theorem not_covers_of_apart {r r' : Range} {x : ℕ} (h : Apart r r') (hx : r'.Covers x) :
    ¬ r.Covers x := by
  rintro hr
  rcases h with h | h
  · exact absurd (lt_of_lt_of_le hr.2 h) hx.1.not_gt
  · exact absurd (lt_of_lt_of_le hx.2 h) hr.1.not_gt

variable {l : List Op} {r : Range}

theorem Legal.of_append {l' : List Op} (h : Legal (l' ++ l)) : Legal l := by
  induction l' with
  | nil => exact h
  | cons op l' ih =>
    cases op with
    | released r => exact ih h.1
    | reused r => exact ih h.1
    | discarded r => exact ih h.1

theorem Legal.size_pos (h : Legal l) : ∀ f ∈ free l, 0 < f.size := by
  induction l with
  | nil => exact fun f hf => absurd hf List.not_mem_nil
  | cons op l ih =>
    intro f hf
    cases op with
    | released r =>
      rcases List.mem_cons.mp hf with rfl | hf
      · exact h.2.1
      · exact ih h.1 f hf
    | reused r => exact ih h.1 f (List.mem_of_mem_erase hf)
    | discarded r => exact ih h.1 f hf

/-- Free extents are apart. -/
theorem Legal.pairwise (h : Legal l) : (free l).Pairwise Apart := by
  induction l with
  | nil => exact List.Pairwise.nil
  | cons op l ih =>
    cases op with
    | released r => exact List.pairwise_cons.mpr ⟨fun f hf => (h.2.2 f hf).symm, ih h.1⟩
    | reused r => exact (ih h.1).sublist List.erase_sublist
    | discarded r => exact ih h.1

theorem Legal.nodup (h : Legal l) : (free l).Nodup := by
  refine h.pairwise.imp_of_mem fun {f g} hf _ hfg heq => ?_
  subst heq
  exact not_apart_self (h.size_pos f hf) hfg

/-- Two free extents are apart or the same. -/
theorem Legal.apart_or_eq (h : Legal l) {f g : Range} (hf : f ∈ free l) (hg : g ∈ free l) :
    f = g ∨ Apart f g := by
  by_cases heq : f = g
  · exact Or.inl heq
  · have : Std.Symm Apart := ⟨fun _ _ hab => hab.symm⟩
    exact Or.inr (h.pairwise.forall hf hg heq)

/-- Free extents that begin at the same position are the same. -/
theorem Legal.eq_of_start (h : Legal l) {f g : Range} (hf : f ∈ free l) (hg : g ∈ free l)
    (heq : f.start = g.start) : f = g := by
  refine (h.apart_or_eq hf hg).resolve_right fun hfg => ?_
  have hfpos := h.size_pos f hf
  have hgpos := h.size_pos g hg
  rcases hfg with hfg | hfg <;> rw [Range.stop] at hfg <;> omega

/-- A position that was reused lies in nothing free until something that covers it is
    released. -/
theorem Legal.not_free_of_reused {mid older : List Op} {x : ℕ}
    (h : Legal (mid ++ .reused r :: older)) (hx : r.Covers x)
    (hmid : ∀ f, .released f ∈ mid → ¬ f.Covers x) :
    ∀ f ∈ free (mid ++ .reused r :: older), ¬ f.Covers x := by
  induction mid with
  | nil =>
    intro f hf
    have hlegal := h.1
    obtain ⟨hne, hmem⟩ := (hlegal.nodup.mem_erase_iff).mp hf
    exact not_covers_of_apart ((hlegal.apart_or_eq hmem h.2).resolve_left hne) hx
  | cons op mid ih =>
    intro f hf
    have hrest : ∀ g, .released g ∈ mid → ¬ g.Covers x := fun g hg =>
      hmid g (List.mem_cons_of_mem op hg)
    cases op with
    | released g =>
      rcases List.mem_cons.mp hf with rfl | hf
      · exact hmid f (List.mem_cons_self ..)
      · exact ih h.1 hrest f hf
    | reused g => exact ih h.1 hrest f (List.mem_of_mem_erase hf)
    | discarded g => exact ih h.1 hrest f hf

/-- No discard covers a position that was reused until something that covers it is released. -/
theorem Legal.not_discarded_of_reused {d : Range} {mid older : List Op} {x : ℕ}
    (h : Legal (mid ++ .reused r :: older)) (hx : r.Covers x)
    (hmid : ∀ f, .released f ∈ mid → ¬ f.Covers x) (hd : .discarded d ∈ mid) : ¬ d.Covers x := by
  obtain ⟨after, before, rfl⟩ := List.append_of_mem hd
  rw [List.append_assoc] at h
  have hlegal := h.of_append
  exact Legal.not_free_of_reused hlegal.1 hx
    (fun f hf => hmid f (List.mem_append_right _ (List.mem_cons_of_mem _ hf))) d hlegal.2

/-- The history since the release of an extent that is untouched. -/
theorem Untouched.split (h : Untouched r l) : ∃ mid older, l = mid ++ .released r :: older ∧
    (∀ d, .discarded d ∈ mid → Apart d r) ∧ .reused r ∉ mid := by
  induction l with
  | nil => exact h.elim
  | cons op l ih =>
    cases op with
    | released r' =>
      by_cases heq : r' = r
      · subst heq
        exact ⟨[], l, rfl, fun d hd => absurd hd List.not_mem_nil, List.not_mem_nil⟩
      · obtain ⟨mid, older, rfl, hmid, hnot⟩ := ih (h.resolve_left heq)
        exact ⟨.released r' :: mid, older, rfl, fun d hd => hmid d (by simpa using hd),
          by simpa using hnot⟩
    | reused r' =>
      obtain ⟨mid, older, rfl, hmid, hnot⟩ := ih h.2
      refine ⟨.reused r' :: mid, older, rfl, fun d hd => hmid d (by simpa using hd), ?_⟩
      rw [List.mem_cons, Op.reused.injEq]
      rintro (heq | hmem)
      · exact h.1 heq.symm
      · exact hnot hmem
    | discarded r' =>
      obtain ⟨mid, older, rfl, hmid, hnot⟩ := ih h.2
      refine ⟨.discarded r' :: mid, older, rfl, fun d hd => ?_, by simpa using hnot⟩
      rcases List.mem_cons.mp hd with heq | hd
      · rw [Op.discarded.inj heq]
        exact h.1
      · exact hmid d hd

end FreeLedger

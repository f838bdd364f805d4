import Mathlib

/-! # Histories of a double-ended queue

    What is pushed at the back, popped off the back and shifted off the front, as a list of
    operations with the newest first; nothing here knows an implementation.

    * `DequeHistory.content` — what a history leaves in the queue, front first;
    * `DequeHistory.Legal` — each pop names the last element and each shift the first;
    * `Legal.perm` and `Legal.content_eq_filter` — what was pushed is what was removed and
      what is left, and what is left keeps the order in which it was pushed. -/

namespace DequeHistory

/-- An operation that changes the queue. -/
inductive Op (α : Type) where
  | push (a : α)
  | pop (a : α)
  | shift (a : α)

variable {α : Type}

/-- What a history leaves in the queue, front first. -/
def content : List (Op α) → List α
  | [] => []
  | .push a :: l => content l ++ [a]
  | .pop _ :: l => (content l).dropLast
  | .shift _ :: l => (content l).tail

/-- What a history pushed, oldest first. -/
def pushed : List (Op α) → List α
  | [] => []
  | .push a :: l => pushed l ++ [a]
  | .pop _ :: l => pushed l
  | .shift _ :: l => pushed l

/-- What a history removed, newest first. -/
def removed : List (Op α) → List α
  | [] => []
  | .push _ :: l => removed l
  | .pop a :: l => a :: removed l
  | .shift a :: l => a :: removed l

/-- Every pop removes the last element and every shift the first. -/
def Legal : List (Op α) → Prop
  | [] => True
  | .push _ :: l => Legal l
  | .pop a :: l => Legal l ∧ (content l).getLast? = some a
  | .shift a :: l => Legal l ∧ (content l).head? = some a

/-- What was pushed has been removed or is still there. -/
theorem Legal.perm {l : List (Op α)} (h : Legal l) : (removed l ++ content l).Perm (pushed l) := by
  induction l with
  | nil => exact List.Perm.nil
  | cons op l ih =>
    cases op with
    | push a =>
      have hl := (ih h).append_right [a]
      rwa [List.append_assoc] at hl
    | pop a =>
      obtain ⟨hl, hlast⟩ := h
      obtain ⟨front, hfront⟩ := List.getLast?_eq_some_iff.mp hlast
      have ih := ih hl
      simp only [removed, content, pushed]
      rw [hfront] at ih ⊢
      rw [List.dropLast_concat]
      rw [← List.append_assoc] at ih
      exact (List.perm_append_singleton a (removed l ++ front)).symm.trans ih
    | shift a =>
      obtain ⟨hl, hhead⟩ := h
      obtain ⟨back, hback⟩ := List.head?_eq_some_iff.mp hhead
      have ih := ih hl
      simp only [removed, content, pushed]
      rw [hback] at ih ⊢
      exact List.perm_middle.symm.trans ih

/-- What is left keeps the order of the pushes. -/
theorem content_sublist (l : List (Op α)) : (content l).Sublist (pushed l) := by
  induction l with
  | nil => exact List.Sublist.refl _
  | cons op l ih =>
    cases op with
    | push a => exact ih.append (List.Sublist.refl [a])
    | pop a => exact (List.dropLast_sublist _).trans ih
    | shift a => exact (List.tail_sublist _).trans ih

/-- Only what was pushed is removed. -/
theorem Legal.removed_subset {l : List (Op α)} (h : Legal l) : removed l ⊆ pushed l :=
  fun _ ha => h.perm.subset (List.mem_append_left _ ha)

/-- Nothing is removed twice, unless it was pushed twice. -/
theorem Legal.nodup_removed {l : List (Op α)} (h : Legal l) (hpushed : (pushed l).Nodup) :
    (removed l).Nodup :=
  (List.nodup_append.mp (h.perm.nodup_iff.mpr hpushed)).1

/-- What is left is what was pushed and not removed, in the order of the pushes. -/
theorem Legal.content_eq_filter [DecidableEq α] {l : List (Op α)} (h : Legal l)
    (hpushed : (pushed l).Nodup) :
    content l = (pushed l).filter fun a => a ∉ removed l := by
  have split := List.nodup_append.mp (h.perm.nodup_iff.mpr hpushed)
  have kept : (content l).filter (fun a => a ∉ removed l) = content l := by
    refine List.filter_eq_self.mpr fun a ha => decide_eq_true fun hremoved => ?_
    exact split.2.2 a hremoved a ha rfl
  have dropped : (removed l).filter (fun a => a ∉ removed l) = [] := by
    refine List.filter_eq_nil_iff.mpr fun a ha => ?_
    simpa using ha
  -- a sublist with as many elements as the whole is the whole
  have sub := (content_sublist l).filter fun a => a ∉ removed l
  have perm := h.perm.filter fun a => a ∉ removed l
  rw [List.filter_append, dropped, List.nil_append] at perm
  rw [kept] at sub perm
  exact sub.eq_of_length perm.length_eq

end DequeHistory

import Mathlib

/-! # Threads over a shared memory, independent of any program

    Each thread has a store of its own and takes its steps on that store and the shared
    memory; the steps of different threads interleave in any order.

    * `Threads.Memory` — the shared memory and every thread's own store;
    * `Threads.Memory.total` — what the threads hold between them, and `total_split`: how a
      step of one thread changes it;
    * `Threads.Reaches` — any number of events, and `Reaches.invariant`: what each event
      keeps holds wherever a run arrives;
    * `Threads.reaches_of_runs` — a list of events that can be executed is a run. -/

namespace Threads

/-! ## Stores -/

section

variable {ι σ τ : Type} [DecidableEq ι]

/-- A shared memory and each thread's own store. -/
structure Memory (ι σ τ : Type) where
  shared : σ
  own : ι → τ

/-- The memory once thread `i` has stepped to `m'` and `l'`. -/
def Memory.set (s : Memory ι σ τ) (i : ι) (m' : σ) (l' : τ) : Memory ι σ τ :=
  { shared := m', own := Function.update s.own i l' }

@[simp] theorem Memory.set_shared (s : Memory ι σ τ) (i : ι) (m' : σ) (l' : τ) :
    (s.set i m' l').shared = m' := rfl

@[simp] theorem Memory.set_own_self (s : Memory ι σ τ) (i : ι) (m' : σ) (l' : τ) :
    (s.set i m' l').own i = l' := Function.update_self ..

@[simp] theorem Memory.set_own_of_ne (s : Memory ι σ τ) {i j : ι} (h : j ≠ i) (m' : σ) (l' : τ) :
    (s.set i m' l').own j = s.own j := Function.update_of_ne h ..

/-- A property of every thread's store after a step: the stepping thread's, and the others'. -/
theorem Memory.forall_set {s : Memory ι σ τ} {i : ι} {m' : σ} {l' : τ} {p : ι → τ → Prop}
    (own : p i l') (others : ∀ j, j ≠ i → p j (s.own j)) (j : ι) :
    p j ((s.set i m' l').own j) := by
  by_cases h : j = i
  · subst h
    rw [Memory.set_own_self]
    exact own
  · rw [Memory.set_own_of_ne s h]
    exact others j h

variable [Fintype ι] {M : Type} [AddCommMonoid M]

/-- What the threads hold between them. -/
def Memory.total (s : Memory ι σ τ) (f : τ → M) : M := ∑ i, f (s.own i)

/-- What one thread holds beside what the others hold, before and after its step. -/
theorem Memory.total_split (s : Memory ι σ τ) (i : ι) (f : τ → M) :
    ∃ others, s.total f = f (s.own i) + others ∧
      ∀ m' l', (s.set i m' l').total f = f l' + others := by
  refine ⟨∑ j ∈ Finset.univ.erase i, f (s.own j), ?_, fun m' l' => ?_⟩
  · exact (Finset.add_sum_erase Finset.univ (fun j => f (s.own j)) (Finset.mem_univ i)).symm
  · have hs := Finset.add_sum_erase Finset.univ (fun j => f ((s.set i m' l').own j))
      (Finset.mem_univ i)
    rw [Memory.set_own_self] at hs
    rw [Memory.total, ← hs]
    refine congrArg _ (Finset.sum_congr rfl fun j hj => ?_)
    rw [Memory.set_own_of_ne s (Finset.ne_of_mem_erase hj)]

end

section

variable {ι σ τ M : Type} [Fintype ι]

/-- A total is nothing when every share is. -/
theorem Memory.total_eq_zero [AddCommMonoid M] {s : Memory ι σ τ} {f : τ → M}
    (h : ∀ i, f (s.own i) = 0) : s.total f = 0 := Finset.sum_eq_zero fun i _ => h i

/-- One share is at most the total. -/
theorem Memory.le_total (s : Memory ι σ τ) (f : τ → ℕ) (i : ι) : f (s.own i) ≤ s.total f :=
  Finset.single_le_sum (f := fun j => f (s.own j)) (fun _ _ => Nat.zero_le _) (Finset.mem_univ i)

end

/-! ## Runs -/

section

variable {ε S : Type} (next : ε → S → Option S)

/-- Some number of events leads from one state to another. -/
def Reaches : S → S → Prop := Relation.ReflTransGen fun s s' => ∃ e, next e s = some s'

/-- What every event keeps holds wherever a run arrives. -/
theorem Reaches.invariant {next : ε → S → Option S} {p : S → Prop} {s s' : S}
    (h : Reaches next s s') (start : p s)
    (step : ∀ e s s', next e s = some s' → p s → p s') : p s' := by
  induction h with
  | refl => exact start
  | tail _ hstep ih =>
    obtain ⟨e, he⟩ := hstep
    exact step e _ _ he ih

/-- The state after a list of events, if each can happen. -/
def runs : List ε → S → Option S
  | [], s => some s
  | e :: es, s => (next e s).bind (runs es)

theorem reaches_of_runs {next : ε → S → Option S} {es : List ε} {s s' : S}
    (h : runs next es s = some s') : Reaches next s s' := by
  induction es generalizing s with
  | nil =>
    rw [runs, Option.some.injEq] at h
    rw [h]
    exact Relation.ReflTransGen.refl
  | cons e es ih =>
    rw [runs, Option.bind_eq_some_iff] at h
    obtain ⟨t, ht, h⟩ := h
    exact Relation.ReflTransGen.head ⟨e, ht⟩ (ih h)

end

end Threads

import Mathlib

/-! # Grammars in the notation of the RFCs

    A rule is a language; `/` is its sum, concatenation its product.

    * `sat`, `optional`, `repeated`, `some1` — a single symbol, `[ L ]`, `a*b( L )` and `1*( L )`;
    * `Only` — the symbols that occur in a rule's words;
    * `run` — groups that are separated by one symbol, and `run_cons`, `run_of_notMem`, its
      words by their first separator. -/

namespace Abnf

open Computability

variable {α : Type}

/-- One symbol of a class. -/
def sat (p : α → Prop) : Language α := {x | ∃ a, x = [a] ∧ p a}

/-- `[ L ]`. -/
def optional (L : Language α) : Language α := 1 + L

/-- `lo*hi( L )`. -/
def repeated (lo hi : ℕ) (L : Language α) : Language α := {x | ∃ k, lo ≤ k ∧ k ≤ hi ∧ x ∈ L ^ k}

/-- `1*( L )`. -/
def some1 (L : Language α) : Language α := L * L∗

theorem mem_sat {p : α → Prop} {x : List α} : x ∈ sat p ↔ ∃ a, x = [a] ∧ p a := Iff.rfl

/-- An optional rule may be left out. -/
theorem mem_optional {L : Language α} {x : List α} : x ∈ optional L ↔ x = [] ∨ x ∈ L := by
  rw [optional, Language.mem_add, Language.mem_one]

/-- A repeated rule, so many times within its bounds. -/
theorem mem_repeated {lo hi : ℕ} {L : Language α} {x : List α} :
    x ∈ repeated lo hi L ↔ ∃ k, lo ≤ k ∧ k ≤ hi ∧ x ∈ L ^ k := Iff.rfl

/-- A word in front of a language. -/
theorem mem_singleton_mul {a x : List α} {L : Language α} :
    x ∈ ({a} : Language α) * L ↔ ∃ y ∈ L, x = a ++ y := by
  rw [Language.mem_mul]
  constructor
  · rintro ⟨b, rfl, y, hy, rfl⟩
    exact ⟨y, hy, rfl⟩
  · rintro ⟨y, hy, rfl⟩
    exact ⟨a, rfl, y, hy, rfl⟩

@[simp] theorem cons_mem_sat {p : α → Prop} {a : α} {x : List α} :
    a :: x ∈ sat p ↔ p a ∧ x = [] := by
  rw [mem_sat]
  constructor
  · rintro ⟨b, heq, hb⟩
    obtain ⟨rfl, rfl⟩ := List.cons.inj heq
    exact ⟨hb, rfl⟩
  · rintro ⟨ha, rfl⟩
    exact ⟨a, rfl, ha⟩

@[simp] theorem nil_mem_sat {p : α → Prop} : [] ∈ sat p ↔ False := by simp [mem_sat]

/-- A rule that starts with one element, read off the front. -/
@[simp] theorem cons_mem_sat_mul {p : α → Prop} {L : Language α} {a : α} {x : List α} :
    a :: x ∈ sat p * L ↔ p a ∧ x ∈ L := by
  rw [Language.mem_mul]
  constructor
  · rintro ⟨_, ⟨b, rfl, hb⟩, y, hy, heq⟩
    obtain ⟨rfl, rfl⟩ := List.cons.inj heq
    exact ⟨hb, hy⟩
  · rintro ⟨ha, hx⟩
    exact ⟨[a], ⟨a, rfl, ha⟩, x, hx, rfl⟩

@[simp] theorem nil_mem_sat_mul {p : α → Prop} {L : Language α} : [] ∈ sat p * L ↔ False := by
  rw [Language.mem_mul]
  constructor
  · rintro ⟨_, ⟨b, rfl, -⟩, y, -, heq⟩
    cases heq
  · exact False.elim

/-- One element, a number of times. -/
theorem mem_sat_pow {p : α → Prop} {k : ℕ} {x : List α} :
    x ∈ sat p ^ k ↔ x.length = k ∧ ∀ a ∈ x, p a := by
  induction k generalizing x with
  | zero =>
    rw [pow_zero, Language.mem_one, List.length_eq_zero_iff]
    constructor
    · rintro rfl
      exact ⟨rfl, fun a ha => absurd ha List.not_mem_nil⟩
    · exact And.left
  | succ k ih =>
    rw [pow_succ', Language.mem_mul]
    constructor
    · rintro ⟨_, ⟨a, rfl, ha⟩, y, hy, rfl⟩
      obtain ⟨hlen, hall⟩ := ih.mp hy
      exact ⟨by simp [hlen], by simpa [ha] using hall⟩
    · rintro ⟨hlen, hall⟩
      obtain ⟨a, y, rfl⟩ := List.exists_cons_of_length_eq_add_one hlen
      obtain ⟨ha, hy⟩ := List.forall_mem_cons.mp hall
      exact ⟨[a], ⟨a, rfl, ha⟩, y, ih.mpr ⟨by simpa using hlen, hy⟩, rfl⟩

/-- One element repeated within bounds. -/
theorem mem_repeated_sat {p : α → Prop} {lo hi : ℕ} {x : List α} :
    x ∈ repeated lo hi (sat p) ↔ lo ≤ x.length ∧ x.length ≤ hi ∧ ∀ a ∈ x, p a := by
  rw [mem_repeated]
  simp only [mem_sat_pow]
  constructor
  · rintro ⟨k, hlo, hhi, rfl, hall⟩
    exact ⟨hlo, hhi, hall⟩
  · rintro ⟨hlo, hhi, hall⟩
    exact ⟨x.length, hlo, hhi, rfl, hall⟩

/-- Any number of times is some number of times. -/
theorem kstar_iff_pow {L : Language α} {x : List α} : x ∈ L∗ ↔ ∃ k, x ∈ L ^ k := by
  rw [Language.kstar_eq_iSup_pow, Language.mem_iSup]

/-- One element at least once. -/
theorem mem_some1_sat {p : α → Prop} {x : List α} :
    x ∈ some1 (sat p) ↔ x ≠ [] ∧ ∀ a ∈ x, p a := by
  rw [some1, Language.mem_mul]
  constructor
  · rintro ⟨_, ⟨a, rfl, ha⟩, y, hy, rfl⟩
    obtain ⟨k, hk⟩ := kstar_iff_pow.mp hy
    exact ⟨List.cons_ne_nil a y, by simpa [ha] using (mem_sat_pow.mp hk).2⟩
  · rintro ⟨hne, hall⟩
    obtain ⟨a, y, rfl⟩ := List.exists_cons_of_ne_nil hne
    obtain ⟨ha, hy⟩ := List.forall_mem_cons.mp hall
    exact ⟨[a], ⟨a, rfl, ha⟩, y, kstar_iff_pow.mpr ⟨y.length, mem_sat_pow.mpr ⟨rfl, hy⟩⟩, rfl⟩

/-- Two alternatives of one element are one. -/
theorem sat_add (p q : α → Prop) : sat p + sat q = sat fun a => p a ∨ q a := by
  ext x
  rw [Language.mem_add, mem_sat, mem_sat, mem_sat]
  constructor
  · rintro (⟨a, rfl, ha⟩ | ⟨a, rfl, ha⟩)
    · exact ⟨a, rfl, Or.inl ha⟩
    · exact ⟨a, rfl, Or.inr ha⟩
  · rintro ⟨a, rfl, ha | ha⟩
    · exact Or.inl ⟨a, rfl, ha⟩
    · exact Or.inr ⟨a, rfl, ha⟩

/-- A word of a repetition that is not empty starts with a word of the language. -/
theorem cons_mem_kstar {L : Language α} {a : α} {x : List α} :
    a :: x ∈ L∗ ↔ a :: x ∈ L * L∗ := by
  have hstep : a :: x ∈ 1 + L * L∗ ↔ a :: x ∈ L * L∗ := by
    rw [Language.mem_add, Language.mem_one]
    exact or_iff_right (List.cons_ne_nil a x)
  rw [← hstep, Language.one_add_self_mul_kstar_eq_kstar]

/-- At least once is any number of times, but not empty. -/
theorem mem_some1 {L : Language α} (hL : [] ∉ L) {x : List α} :
    x ∈ some1 L ↔ x ≠ [] ∧ x ∈ L∗ := by
  rw [some1]
  cases x with
  | nil =>
    refine iff_of_false (fun h => ?_) fun h => h.1 rfl
    obtain ⟨a, ha, b, -, heq⟩ := Language.mem_mul.mp h
    exact hL ((List.append_eq_nil_iff.mp heq).1 ▸ ha)
  | cons a x => simp [cons_mem_kstar]

/-! ## The symbols of a rule -/

/-- Every symbol of every word of the language is in the class. -/
def Only (p : α → Prop) (L : Language α) : Prop := ∀ x ∈ L, ∀ a ∈ x, p a

variable {p q : α → Prop} {L M : Language α}

/-- A weaker condition holds of the elements too. -/
theorem Only.mono (h : Only p L) (hpq : ∀ a, p a → q a) : Only q L := fun x hx a ha =>
  hpq a (h x hx a ha)

theorem Only.sat (h : ∀ a, q a → p a) : Only p (sat q) := by
  rintro _ ⟨a, rfl, ha⟩ b hb
  rw [List.mem_singleton.mp hb]
  exact h a ha

theorem Only.singleton {w : List α} (h : ∀ a ∈ w, p a) : Only p ({w} : Language α) := by
  rintro _ rfl
  exact h

theorem Only.one : Only p (1 : Language α) := by
  intro x hx a ha
  rw [(Language.mem_one x).mp hx] at ha
  exact absurd ha List.not_mem_nil

/-- Alternatives hold only what each of them does. -/
theorem Only.add (hL : Only p L) (hM : Only p M) : Only p (L + M) := by
  intro x hx
  rcases (Language.mem_add L M x).mp hx with hx | hx
  · exact hL x hx
  · exact hM x hx

/-- Rules after each other hold only what each of them does. -/
theorem Only.mul (hL : Only p L) (hM : Only p M) : Only p (L * M) := by
  intro x hx a ha
  obtain ⟨y, hy, z, hz, rfl⟩ := Language.mem_mul.mp hx
  rcases List.mem_append.mp ha with ha | ha
  · exact hL y hy a ha
  · exact hM z hz a ha

/-- Repeating a rule adds no element. -/
theorem Only.pow (hL : Only p L) (k : ℕ) : Only p (L ^ k) := by
  induction k with
  | zero =>
    rw [pow_zero]
    exact Only.one
  | succ k ih =>
    rw [pow_succ]
    exact ih.mul hL

theorem Only.repeated (hL : Only p L) (lo hi : ℕ) : Only p (repeated lo hi L) := by
  rintro x ⟨k, -, -, hx⟩
  exact hL.pow k x hx

theorem Only.optional (hL : Only p L) : Only p (optional L) := Only.one.add hL

theorem Only.some1 (hL : Only p L) : Only p (some1 L) := by
  refine hL.mul fun x hx => ?_
  obtain ⟨k, hk⟩ := kstar_iff_pow.mp hx
  exact hL.pow k x hk

/-! ## Groups between separators -/

variable {c : α} {G T : Language α}

/-- Some groups, each before a separator, and a last one. -/
def run (G : Language α) (c : α) (T : Language α) (k : ℕ) : Language α := (G * {[c]}) ^ k * T

theorem run_zero : run G c T 0 = T := by rw [run, pow_zero, one_mul]

theorem run_succ (k : ℕ) : run G c T (k + 1) = G * {[c]} * run G c T k := by
  rw [run, pow_succ', mul_assoc]
  rfl

/-- A run of one more item, read off the front. -/
theorem mem_run_succ {k : ℕ} {x : List α} :
    x ∈ run G c T (k + 1) ↔ ∃ g ∈ G, ∃ y ∈ run G c T k, x = g ++ c :: y := by
  rw [run_succ, mul_assoc, Language.mem_mul]
  constructor
  · rintro ⟨g, hg, z, hz, rfl⟩
    obtain ⟨y, hy, rfl⟩ := mem_singleton_mul.mp hz
    exact ⟨g, hg, y, hy, rfl⟩
  · rintro ⟨g, hg, y, hy, rfl⟩
    exact ⟨g, hg, c :: y, mem_singleton_mul.mpr ⟨y, hy, rfl⟩, rfl⟩

/-- A word without a separator has the last group alone. -/
theorem run_of_notMem {x : List α} (hx : c ∉ x) {k : ℕ} :
    x ∈ run G c T k ↔ k = 0 ∧ x ∈ T := by
  cases k with
  | zero => simp [run_zero]
  | succ k =>
    constructor
    · intro h
      obtain ⟨g, -, y, -, rfl⟩ := mem_run_succ.mp h
      simp at hx
    · rintro ⟨h, -⟩
      cases h

/-- The first separator of a word splits it in one way. -/
theorem split_unique {g g' y y' : List α} (hg : c ∉ g) (hg' : c ∉ g')
    (h : g ++ c :: y = g' ++ c :: y') : g = g' ∧ y = y' := by
  induction g generalizing g' with
  | nil =>
    cases g' with
    | nil => exact ⟨rfl, (List.cons.inj h).2⟩
    | cons a g' =>
      obtain ⟨rfl, -⟩ := List.cons.inj h
      exact absurd (List.mem_cons_self ..) hg'
  | cons a g ih =>
    cases g' with
    | nil =>
      obtain ⟨rfl, -⟩ := List.cons.inj h
      exact absurd (List.mem_cons_self ..) hg
    | cons b g' =>
      obtain ⟨rfl, hrest⟩ := List.cons.inj h
      obtain ⟨rfl, hy⟩ := ih (fun hc => hg (List.mem_cons_of_mem _ hc))
        (fun hc => hg' (List.mem_cons_of_mem _ hc)) hrest
      exact ⟨rfl, hy⟩

/-- A word with one starts with a group, if no group has one. -/
theorem run_cons (hG : Only (· ≠ c) G) (hT : Only (· ≠ c) T) {g y : List α} (hg : c ∉ g) {k : ℕ} :
    g ++ c :: y ∈ run G c T k ↔ ∃ j, k = j + 1 ∧ g ∈ G ∧ y ∈ run G c T j := by
  cases k with
  | zero =>
    rw [run_zero]
    constructor
    · intro h
      exact absurd rfl (hT _ h c (by simp))
    · rintro ⟨j, hj, -⟩
      cases hj
  | succ k =>
    constructor
    · intro h
      obtain ⟨g', hg', y', hy', heq⟩ := mem_run_succ.mp h
      have hnot : c ∉ g' := fun hc => hG g' hg' c hc rfl
      obtain ⟨rfl, rfl⟩ := split_unique hg hnot heq
      exact ⟨k, rfl, hg', hy'⟩
    · rintro ⟨j, hj, hgG, hy⟩
      obtain rfl := Nat.succ.inj hj
      exact mem_run_succ.mpr ⟨g, hgG, y, hy, rfl⟩

/-- A run holds the elements of its items, its separator and its end. -/
theorem Only.run (hG : Only p G) (hc : p c) (hT : Only p T) (k : ℕ) : Only p (run G c T k) := by
  have hsep : Only p ({[c]} : Language α) := Only.singleton (by simpa using hc)
  exact ((hG.mul hsep).pow k).mul hT

end Abnf

import EcoCompiler.Dict

/-! # Lifetimes

    `Compiler.MonoOpt.Borrow.Lifetime`: the latest point of a function body at which a resource is
    live.  The dictionary of an `InAlts` is the list of its entries, and `Ordered` says that their
    keys increase.

    * `Life`, `Lifetime`, `join`, `leq`, `endsBefore` — the functions of the source;
    * `Preorder Lifetime`, `isLUB_join` — `leq` is a preorder, and `join` its least upper bound;
    * `endsBefore_of_leq` — a lifetime that ends no later has ended wherever the other has. -/

namespace Borrow

/-! ## Points and lifetimes -/

/-- `Step`: into a sequence, or into one of some alternatives. -/
inductive Step where
  | Seq (n i : ℤ)
  | Arm (n i : ℤ)
  deriving DecidableEq

/-- `Path`. -/
abbrev Path := List Step

/-- `Life`: how far into an expression a value is used. -/
inductive Life where
  | Star
  | InSeq (n i : ℤ) (l : Life)
  | InAlts (n : ℤ) (arms : List (ℤ × Life))

/-- The entries of the dictionaries are in the order of their keys. -/
inductive Life.Ordered : Life → Prop where
  | star : Life.Star.Ordered
  | inSeq {n i : ℤ} {l : Life} (h : l.Ordered) : (Life.InSeq n i l).Ordered
  | inAlts {n : ℤ} {arms : List (ℤ × Life)} (hkeys : arms.Pairwise (fun a b => a.1 < b.1))
      (h : ∀ e ∈ arms, e.2.Ordered) : (Life.InAlts n arms).Ordered

/-- `Lifetime`: none, up to a point of this definition, or beyond it. -/
inductive Lifetime where
  | LEmpty
  | LLocal (life : Life) (ordered : life.Ordered)

/-! ## Construction -/

/-- `fromPathLife`. -/
def fromPathLife : Path → Life
  | [] => .Star
  | .Seq n i :: rest => .InSeq n i (fromPathLife rest)
  | .Arm n i :: rest => .InAlts n [(i, fromPathLife rest)]

/-- The lifetime of a path is ordered. -/
theorem ordered_fromPathLife (path : Path) : (fromPathLife path).Ordered := by
  induction path with
  | nil => exact .star
  | cons step rest ih =>
    cases step with
    | Seq n i => exact .inSeq ih
    | Arm n i => exact .inAlts (List.pairwise_singleton _ _) (by simpa using ih)

/-- `fromPath`. -/
def fromPath (path : Path) : Lifetime := .LLocal (fromPathLife path) (ordered_fromPathLife path)

/-! ## Join -/

mutual

/-- `joinLife`. -/
def joinLife (x : Life) : Life → Life
  | .Star => .Star
  | .InSeq _ j m =>
    match x with
    | .Star => .Star
    | .InSeq n i l =>
      if i > j then .InSeq n i l
      else if j > i then .InSeq n j m
      else .InSeq n i (joinLife l m)
    | .InAlts _ _ => .Star
  | .InAlts _ bs =>
    match x with
    | .Star => .Star
    | .InSeq _ _ _ => .Star
    | .InAlts n as => .InAlts n (mergeArms as bs)

/-- The `Dict.merge` of `joinLife`: every arm of either, and the join of the ends in an arm of
    both. -/
def mergeArms (as : List (ℤ × Life)) : List (ℤ × Life) → List (ℤ × Life)
  | [] => as
  | (k, m) :: bs =>
    Dict.insertEntry k
      (match as.lookup k with
      | some l => joinLife l m
      | none => m)
      (mergeArms as bs)

end

/-! ## Order -/

mutual

/-- `lifeLeq`. -/
def lifeLeq : Life → Life → Bool
  | .Star, y =>
    match y with
    | .Star => true
    | .InSeq _ _ _ => false
    | .InAlts _ _ => false
  | .InSeq _ i l, y =>
    match y with
    | .Star => true
    | .InSeq _ j m => i < j || (i == j && lifeLeq l m)
    | .InAlts _ _ => false
  | .InAlts _ as, y =>
    match y with
    | .Star => true
    | .InSeq _ _ _ => false
    | .InAlts _ bs => armsLeq as bs

/-- The `Dict.foldl` of `lifeLeq`. -/
def armsLeq : List (ℤ × Life) → List (ℤ × Life) → Bool
  | [], _ => true
  | (k, l) :: as, bs =>
    (match bs.lookup k with
    | some m => lifeLeq l m
    | none => false) && armsLeq as bs

end

/-- `leq`. -/
def leq : Lifetime → Lifetime → Bool
  | .LEmpty, _ => true
  | .LLocal _ _, .LEmpty => false
  | .LLocal x _, .LLocal y _ => lifeLeq x y

/-- `eq`. -/
def eq (a b : Lifetime) : Bool := leq a b && leq b a

/-! ## Predicates -/

/-- `endsBeforeLife`. -/
def endsBeforeLife : Life → Path → Bool
  | .Star, _ => false
  | .InSeq _ _ _, [] => true
  | .InSeq _ i l, .Seq _ j :: rest =>
    if i < j then true else if i > j then false else endsBeforeLife l rest
  | .InSeq _ _ _, .Arm _ _ :: _ => false
  | .InAlts _ _, [] => true
  | .InAlts _ as, .Arm _ j :: rest =>
    match as.lookup j with
    | none => true
    | some l => endsBeforeLife l rest
  | .InAlts _ _, .Seq _ _ :: _ => false

/-- `endsBefore`: over before the point of a path. -/
def endsBefore (lifetime : Lifetime) (path : Path) : Bool :=
  match lifetime with
  | .LEmpty => true
  | .LLocal l _ => endsBeforeLife l path

/-! ## The order is a preorder -/

section

variable {x y z l m : Life} {n i : ℤ} {as bs cs : List (ℤ × Life)} {k : ℤ}

/-- Nothing lives longer than the whole. -/
theorem lifeLeq_star (x : Life) : lifeLeq x .Star = true := by
  cases x <;> rfl

/-- Arms are below others when each has its counterpart there. -/
theorem armsLeq_iff : armsLeq as bs = true ↔
    ∀ e ∈ as, ∃ m, bs.lookup e.1 = some m ∧ lifeLeq e.2 m = true := by
  induction as with
  | nil => simp [armsLeq]
  | cons e as ih =>
    obtain ⟨k, l⟩ := e
    rw [armsLeq, Bool.and_eq_true, ih, List.forall_mem_cons]
    cases bs.lookup k <;> simp

theorem mem_of_lookup (h : as.lookup k = some l) : (k, l) ∈ as := by
  induction as with
  | nil => cases h
  | cons e as ih =>
    rw [List.lookup_cons] at h
    split at h
    · next heq =>
      obtain rfl := Option.some.inj h
      rw [beq_iff_eq.mp heq]
      exact List.mem_cons_self ..
    · exact List.mem_cons_of_mem _ (ih h)

/-- With increasing keys, looking one up is finding its entry. -/
theorem lookup_eq_some_iff (hkeys : as.Pairwise (fun a b => a.1 < b.1)) :
    as.lookup k = some l ↔ (k, l) ∈ as :=
  Dict.get_eq_some_iff (d := ⟨as, hkeys⟩)

/-- The order of lifetimes is reflexive, on ordered ones. -/
theorem lifeLeq_refl (hx : x.Ordered) : lifeLeq x x = true := by
  induction hx with
  | star => rfl
  | inSeq _ ih => simp [lifeLeq, ih]
  | inAlts hkeys _ ih =>
    rw [lifeLeq, armsLeq_iff]
    intro e he
    exact ⟨e.2, (lookup_eq_some_iff hkeys).mpr he, ih e he⟩

/-- The order of lifetimes is transitive. -/
theorem lifeLeq_trans (hx : x.Ordered) (hxy : lifeLeq x y = true) (hyz : lifeLeq y z = true) :
    lifeLeq x z = true := by
  -- a sequence and alternatives compare only with their own kind and the top
  induction hx generalizing y z with
  | star =>
    cases y with
    | Star => exact hyz
    | InSeq | InAlts => cases hxy
  | inSeq _ ih =>
    cases y with
    | Star =>
      cases z with
      | Star => rfl
      | InSeq | InAlts => cases hyz
    | InAlts => cases hxy
    | InSeq n j m =>
      cases z with
      | Star => rfl
      | InAlts => cases hyz
      | InSeq n k p =>
        simp only [lifeLeq, Bool.or_eq_true, decide_eq_true_eq, Bool.and_eq_true, beq_iff_eq]
          at hxy hyz ⊢
        -- a later step wins, and inside one step the rest decides
        rcases hxy with hij | ⟨rfl, hxy⟩
        · rcases hyz with hjk | ⟨rfl, -⟩
          · exact Or.inl (hij.trans hjk)
          · exact Or.inl hij
        · rcases hyz with hjk | ⟨rfl, hyz⟩
          · exact Or.inl hjk
          · exact Or.inr ⟨rfl, ih hxy hyz⟩
  | inAlts _ _ ih =>
    cases y with
    | Star =>
      cases z with
      | Star => rfl
      | InSeq | InAlts => cases hyz
    | InSeq => cases hxy
    | InAlts n bs =>
      cases z with
      | Star => rfl
      | InSeq => cases hyz
      | InAlts n cs =>
        rw [lifeLeq, armsLeq_iff] at hxy hyz ⊢
        intro e he
        obtain ⟨m, hm, hle⟩ := hxy e he
        obtain ⟨p, hp, hle'⟩ := hyz _ (mem_of_lookup hm)
        exact ⟨p, hp, ih e he hle hle'⟩

end

theorem leq_refl (a : Lifetime) : leq a a = true := by
  cases a with
  | LEmpty => rfl
  | LLocal x hx => exact lifeLeq_refl hx

theorem leq_trans (a b c : Lifetime) (hab : leq a b = true) (hbc : leq b c = true) :
    leq a c = true := by
  cases a with
  | LEmpty => rfl
  | LLocal x hx =>
    cases b with
    | LEmpty => cases hab
    | LLocal y hy =>
      cases c with
      | LEmpty => cases hbc
      | LLocal z hz => exact lifeLeq_trans hx hab hbc

instance : Preorder Lifetime where
  le a b := leq a b = true
  le_refl := leq_refl
  le_trans := leq_trans

instance : DecidableLE Lifetime := fun a b => inferInstanceAs (Decidable (leq a b = true))

theorem le_iff_leq {a b : Lifetime} : a ≤ b ↔ leq a b = true := Iff.rfl

/-! ## The join is the least upper bound -/

section

variable {x y z l m : Life} {n i : ℤ} {as bs cs : List (ℤ × Life)} {k : ℤ}

/-- The ends in one arm. -/
def joinArm : Option Life → Option Life → Option Life
  | none, b => b
  | some l, none => some l
  | some l, some m => some (joinLife l m)

/-- Merged arms stay ordered by their index. -/
theorem increasing_mergeArms (has : as.Pairwise (fun a b => a.1 < b.1)) :
    (mergeArms as bs).Pairwise (fun a b => a.1 < b.1) := by
  induction bs with
  | nil =>
    rw [mergeArms]
    exact has
  | cons e bs ih =>
    rw [mergeArms]
    exact Dict.increasing_insertEntry ih _ _

/-- An arm of the merged ones is joined from both. -/
theorem lookup_mergeArms (has : as.Pairwise (fun a b => a.1 < b.1))
    (hbs : bs.Pairwise (fun a b => a.1 < b.1)) (k : ℤ) :
    (mergeArms as bs).lookup k = joinArm (as.lookup k) (bs.lookup k) := by
  induction bs with
  | nil =>
    rw [mergeArms]
    cases as.lookup k <;> rfl
  | cons e bs ih =>
    obtain ⟨hhead, htail⟩ := List.pairwise_cons.mp hbs
    obtain ⟨j, m⟩ := e
    have hinsert : ∀ v, (Dict.insertEntry j v (mergeArms as bs)).lookup k
        = if k = j then some v else (mergeArms as bs).lookup k :=
      fun v => Dict.get_insert ⟨_, increasing_mergeArms has⟩ j v k
    rw [mergeArms, hinsert, ih htail, List.lookup_cons]
    by_cases hkj : k = j
    · rw [if_pos hkj, beq_iff_eq.mpr hkj, hkj]
      cases as.lookup j <;> rfl
    · rw [if_neg hkj, beq_eq_false_iff_ne.mpr hkj]

/-- An arm of the merged ones is an arm of one, or joined from an arm of each. -/
theorem mergeArms_cases (has : as.Pairwise (fun a b => a.1 < b.1))
    (hbs : bs.Pairwise (fun a b => a.1 < b.1)) {e : ℤ × Life} (he : e ∈ mergeArms as bs) :
    e ∈ as ∨ e ∈ bs ∨ ∃ l m, (e.1, l) ∈ as ∧ (e.1, m) ∈ bs ∧ e.2 = joinLife l m := by
  have hlookup := (lookup_eq_some_iff (increasing_mergeArms has)).mpr he
  rw [lookup_mergeArms has hbs] at hlookup
  cases ha : as.lookup e.1 with
  | none =>
    rw [ha] at hlookup
    exact Or.inr (Or.inl (mem_of_lookup hlookup))
  | some l =>
    rw [ha] at hlookup
    cases hb : bs.lookup e.1 with
    | none =>
      rw [hb] at hlookup
      obtain rfl := Option.some.inj hlookup
      exact Or.inl (mem_of_lookup ha)
    | some m =>
      rw [hb] at hlookup
      exact Or.inr (Or.inr ⟨l, m, mem_of_lookup ha, mem_of_lookup hb,
        (Option.some.inj hlookup).symm⟩)

theorem joinLife_star (x : Life) : joinLife x .Star = .Star := by
  cases x <;> rfl

theorem star_joinLife (y : Life) : joinLife .Star y = .Star := by
  cases y <;> rfl

/-- Two places of one sequence join at the later. -/
theorem joinLife_seq (n n' i j : ℤ) (l m : Life) :
    joinLife (.InSeq n i l) (.InSeq n' j m) =
      if i > j then .InSeq n i l else if j > i then .InSeq n j m
      else .InSeq n i (joinLife l m) := by
  rw [joinLife]

/-- Two sets of alternatives join arm by arm. -/
theorem joinLife_alts (n n' : ℤ) (as bs : List (ℤ × Life)) :
    joinLife (.InAlts n as) (.InAlts n' bs) = .InAlts n (mergeArms as bs) := by
  rw [joinLife]

/-- A sequence and alternatives have only the whole in common. -/
theorem joinLife_seq_alts (n n' i : ℤ) (l : Life) (bs : List (ℤ × Life)) :
    joinLife (.InSeq n i l) (.InAlts n' bs) = .Star := by
  rw [joinLife]

theorem joinLife_alts_seq (n n' j : ℤ) (as : List (ℤ × Life)) (m : Life) :
    joinLife (.InAlts n as) (.InSeq n' j m) = .Star := by
  rw [joinLife]

/-- Joining keeps lifetimes ordered. -/
theorem ordered_joinLife (hx : x.Ordered) (hy : y.Ordered) : (joinLife x y).Ordered := by
  induction hy generalizing x with
  | star =>
    rw [joinLife_star]
    exact .star
  | inSeq hm ih =>
    cases hx with
    | star =>
      rw [star_joinLife]
      exact .star
    | inAlts =>
      rw [joinLife_alts_seq]
      exact .star
    | inSeq hl =>
      rw [joinLife_seq]
      split_ifs
      · exact .inSeq hl
      · exact .inSeq hm
      · exact .inSeq (ih hl)
  | inAlts hbs hm ih =>
    cases hx with
    | star =>
      rw [star_joinLife]
      exact .star
    | inSeq =>
      rw [joinLife_seq_alts]
      exact .star
    | inAlts has hl =>
      rw [joinLife_alts]
      refine .inAlts (increasing_mergeArms has) fun e he => ?_
      rcases mergeArms_cases has hbs he with ha | hb | ⟨l, m, ha, hb, heq⟩
      · exact hl e ha
      · exact hm e hb
      · rw [heq]
        exact ih _ hb (hl _ ha)

/-- The join is above its first argument. -/
theorem lifeLeq_joinLife_left (hx : x.Ordered) (hy : y.Ordered) :
    lifeLeq x (joinLife x y) = true := by
  induction hy generalizing x with
  | star =>
    rw [joinLife_star]
    exact lifeLeq_star x
  | inSeq hm ih =>
    cases hx with
    | star =>
      rw [star_joinLife]
      rfl
    | inAlts =>
      rw [joinLife_alts_seq]
      rfl
    | inSeq hl =>
      rw [joinLife_seq]
      split_ifs with h₁ h₂
      · exact lifeLeq_refl (.inSeq hl)
      · simp [lifeLeq, h₂]
      · simp [lifeLeq, ih hl]
  | inAlts hbs hm ih =>
    cases hx with
    | star =>
      rw [star_joinLife]
      rfl
    | inSeq =>
      rw [joinLife_seq_alts]
      rfl
    | inAlts has hl =>
      rw [joinLife_alts, lifeLeq, armsLeq_iff]
      intro e he
      rw [lookup_mergeArms has hbs, (lookup_eq_some_iff has).mpr he]
      cases hb : List.lookup e.1 _ with
      | none => exact ⟨e.2, rfl, lifeLeq_refl (hl e he)⟩
      | some m => exact ⟨_, rfl, ih _ (mem_of_lookup hb) (hl e he)⟩

/-- The join is above its second argument. -/
theorem lifeLeq_joinLife_right (hx : x.Ordered) (hy : y.Ordered) :
    lifeLeq y (joinLife x y) = true := by
  -- by the right one; the join with another kind is the top
  induction hy generalizing x with
  | star =>
    rw [joinLife_star]
    rfl
  | inSeq hm ih =>
    cases hx with
    | star =>
      rw [star_joinLife]
      rfl
    | inAlts =>
      rw [joinLife_alts_seq]
      rfl
    | inSeq hl =>
      rw [joinLife_seq]
      split_ifs with h₁ h₂
      · simp [lifeLeq, h₁]
      · simp [lifeLeq, lifeLeq_refl hm]
      · have heq := le_antisymm (not_lt.mp h₁) (not_lt.mp h₂)
        simp [lifeLeq, heq, ih hl]
  | inAlts hbs hm ih =>
    cases hx with
    | star =>
      rw [star_joinLife]
      rfl
    | inSeq =>
      rw [joinLife_seq_alts]
      rfl
    | inAlts has hl =>
      rw [joinLife_alts, lifeLeq, armsLeq_iff]
      intro e he
      rw [lookup_mergeArms has hbs, (lookup_eq_some_iff hbs).mpr he]
      cases ha : List.lookup e.1 _ with
      | none => exact ⟨e.2, rfl, lifeLeq_refl (hm e he)⟩
      | some l => exact ⟨_, rfl, ih e he (hl _ (mem_of_lookup ha))⟩

/-- Any bound of both is above the join. -/
theorem joinLife_lifeLeq (hx : x.Ordered) (hy : y.Ordered) (hxz : lifeLeq x z = true)
    (hyz : lifeLeq y z = true) : lifeLeq (joinLife x y) z = true := by
  induction hy generalizing x z with
  | star =>
    rw [joinLife_star]
    exact hyz
  | inSeq hm ih =>
    cases hx with
    | star =>
      rw [star_joinLife]
      exact hxz
    | inAlts =>
      -- only `Star` is above an end in a sequence and one in alternatives
      cases z with
      | Star => exact lifeLeq_star _
      | InSeq => cases hxz
      | InAlts => cases hyz
    | inSeq hl =>
      rw [joinLife_seq]
      split_ifs with h₁ h₂
      · exact hxz
      · exact hyz
      · cases z with
        | Star => rfl
        | InAlts => cases hxz
        | InSeq n k p =>
          have heq := le_antisymm (not_lt.mp h₁) (not_lt.mp h₂)
          simp only [lifeLeq, Bool.or_eq_true, decide_eq_true_eq, Bool.and_eq_true, beq_iff_eq]
            at hxz hyz ⊢
          rcases hxz with hlt | ⟨hik, hlz⟩
          · exact Or.inl hlt
          · rcases hyz with hlt | ⟨-, hmz⟩
            · exact Or.inl (heq ▸ hlt)
            · exact Or.inr ⟨hik, ih hl hlz hmz⟩
  | inAlts hbs hm ih =>
    cases hx with
    | star =>
      rw [star_joinLife]
      exact hxz
    | inSeq =>
      cases z with
      | Star => exact lifeLeq_star _
      | InSeq => cases hyz
      | InAlts => cases hxz
    | inAlts has hl =>
      rw [joinLife_alts]
      cases z with
      | Star => rfl
      | InSeq => cases hxz
      | InAlts n cs =>
        rw [lifeLeq, armsLeq_iff] at hxz hyz ⊢
        intro e he
        rcases mergeArms_cases has hbs he with ha | hb | ⟨l, m, ha, hb, heq⟩
        · exact hxz e ha
        · exact hyz e hb
        · obtain ⟨p, hp, hlp⟩ := hxz _ ha
          obtain ⟨q, hq, hmq⟩ := hyz _ hb
          obtain rfl := Option.some.inj (hp.symm.trans hq)
          rw [heq]
          exact ⟨p, hp, ih _ hb (hl _ ha) hlp hmq⟩

end

/-- `join`. -/
def join : Lifetime → Lifetime → Lifetime
  | .LEmpty, b => b
  | .LLocal x hx, .LEmpty => .LLocal x hx
  | .LLocal x hx, .LLocal y hy => .LLocal (joinLife x y) (ordered_joinLife hx hy)

/-- The join is the least upper bound. -/
theorem isLUB_join (a b : Lifetime) : IsLUB {a, b} (join a b) := by
  have hempty : ∀ a : Lifetime, .LEmpty ≤ a := fun a => le_iff_leq.mpr rfl
  constructor
  · intro c hc
    cases a with
    | LEmpty =>
      rcases hc with rfl | rfl
      · exact hempty b
      · exact le_refl c
    | LLocal x hx =>
      cases b with
      | LEmpty =>
        rcases hc with rfl | rfl
        · exact le_refl _
        · exact hempty _
      | LLocal y hy =>
        rcases hc with rfl | rfl
        · exact lifeLeq_joinLife_left hx hy
        · exact lifeLeq_joinLife_right hx hy
  · intro c hc
    have ha : a ≤ c := hc (Set.mem_insert a {b})
    have hb : b ≤ c := hc (Set.mem_insert_of_mem a (Set.mem_singleton b))
    cases a with
    | LEmpty => exact hb
    | LLocal x hx =>
      cases b with
      | LEmpty => exact ha
      | LLocal y hy =>
        cases c with
        | LEmpty => cases ha
        | LLocal z hz => exact joinLife_lifeLeq hx hy ha hb

/-! ## Ending before a point -/

/-- What ends before a path does so for every shorter lifetime. -/
theorem endsBeforeLife_of_lifeLeq {x y : Life} {path : Path} (h : lifeLeq x y = true)
    (hy : endsBeforeLife y path = true) : endsBeforeLife x path = true := by
  -- by the path: both lifetimes go down it together, or differ at this step
  induction path generalizing x y with
  | nil =>
    cases x with
    | Star =>
      cases y with
      | Star => cases hy
      | InSeq | InAlts => cases h
    | InSeq | InAlts => rfl
  | cons step rest ih =>
    cases y with
    | Star => cases hy
    | InSeq n j m =>
      cases x with
      | Star | InAlts => cases h
      | InSeq n' i l =>
        cases step with
        | Arm => cases hy
        | Seq n'' k =>
          simp only [lifeLeq, Bool.or_eq_true, decide_eq_true_eq, Bool.and_eq_true, beq_iff_eq] at h
          rw [endsBeforeLife] at hy ⊢
          split_ifs at hy with hjk hkj
          · rw [if_pos (by rcases h with h | h <;> omega)]
          · rcases h with hij | ⟨rfl, hle⟩
            · rw [if_pos (by omega)]
            · rw [if_neg hjk, if_neg hkj]
              exact ih hle hy
    | InAlts n bs =>
      cases x with
      | Star | InSeq => cases h
      | InAlts n' as =>
        cases step with
        | Seq => cases hy
        | Arm n'' k =>
          rw [lifeLeq, armsLeq_iff] at h
          rw [endsBeforeLife] at hy ⊢
          cases ha : as.lookup k with
          | none => rfl
          | some l =>
            obtain ⟨m, hm, hle⟩ := h _ (mem_of_lookup ha)
            rw [hm] at hy
            exact ih hle hy

/-- A lifetime that ends no later has ended wherever the other has. -/
theorem endsBefore_of_leq {a b : Lifetime} {path : Path} (h : a ≤ b)
    (hb : endsBefore b path = true) : endsBefore a path = true := by
  cases a with
  | LEmpty => rfl
  | LLocal x hx =>
    cases b with
    | LEmpty => cases h
    | LLocal y hy => exact endsBeforeLife_of_lifeLeq h hb

end Borrow

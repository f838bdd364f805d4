import EcoCompiler.IntArray

/-! # Classes of resources

    `Compiler.MonoOpt.Borrow.Dsu`, a union-find with ranks and path compression.  A walk up the
    parents takes as many steps as there are keys at most; `findRoot_eq` is its recursion in the
    source.

    * `findRoot`, `compress`, `union` — the functions of the source;
    * `Ranked` — the invariant: a parent is a key of greater rank;
    * `Leads` — the root that the parents of a key lead to;
    * `union_spec`, `findRoot_union` — a union keeps the invariant, and merges the classes of its
      keys and no others;
    * `findRoot_unions_iff` — after any unions the classes are what their pairs connect. -/

namespace Borrow

open IntArray (Inside get set)

/-- `Dsu`: the parent and the rank of each element. -/
structure Dsu where
  parent : List ℤ
  rank : List ℤ

namespace Dsu

/-- `empty`: every element on its own. -/
def empty (n : ℕ) : Dsu where
  parent := IntArray.tabulate n id
  rank := IntArray.repeated n 0

/-- `findRoot`, for a number of keys on the chain. -/
def findRootIn : ℕ → ℤ → Dsu → ℤ
  | 0, x, _ => x
  | keys + 1, x, dsu =>
    match get x dsu.parent with
    | none => x
    | some p => if p = x then x else findRootIn keys p dsu

/-- `findRoot`. -/
def findRoot (x : ℤ) (dsu : Dsu) : ℤ := findRootIn dsu.parent.length x dsu

/-- `compress`, for a number of keys on the chain. -/
def compressIn : ℕ → ℤ → ℤ → Dsu → Dsu
  | 0, _, _, dsu => dsu
  | keys + 1, x, root, dsu =>
    match get x dsu.parent with
    | none => dsu
    | some p =>
      if p = x then dsu
      else
        -- the chain goes on from the parent before the key was repointed
        compressIn keys p root { dsu with parent := set x root dsu.parent }

/-- `compress`: the elements on the way point to the root. -/
def compress (x root : ℤ) (dsu : Dsu) : Dsu := compressIn dsu.parent.length x root dsu

/-- `find`. -/
def find (x : ℤ) (dsu : Dsu) : ℤ × Dsu :=
  let root := findRoot x dsu
  (root, compress x root dsu)

/-- `union`, by rank. -/
def union (a b : ℤ) (d0 : Dsu) : Dsu :=
  let (ra, d1) := find a d0
  let (rb, d2) := find b d1
  if ra = rb then d2
  else
    let ka := (get ra d2.rank).getD 0
    let kb := (get rb d2.rank).getD 0
    if ka < kb then { d2 with parent := set ra rb d2.parent }
    else if kb < ka then { d2 with parent := set rb ra d2.parent }
    else { d2 with parent := set rb ra d2.parent, rank := set ra (ka + 1) d2.rank }

/-! ## The invariant -/

/-- The rank of an element. -/
def rankOf (dsu : Dsu) (x : ℤ) : ℤ := (get x dsu.rank).getD 0

/-- Both arrays have a value for each of `n` keys, and a parent is a key of greater rank, or the key
    itself. -/
structure Ranked (n : ℕ) (dsu : Dsu) : Prop where
  length_parent : dsu.parent.length = n
  length_rank : dsu.rank.length = n
  inside : ∀ {x p : ℤ}, get x dsu.parent = some p → Inside n p
  rank_lt : ∀ {x p : ℤ}, get x dsu.parent = some p → p ≠ x → dsu.rankOf x < dsu.rankOf p

/-- The parents of `x` lead to the root `r`. -/
inductive Leads (dsu : Dsu) : ℤ → ℤ → Prop where
  | root {r : ℤ} (h : get r dsu.parent = some r) : Leads dsu r r
  | step {x p r : ℤ} (h : get x dsu.parent = some p) (hne : p ≠ x) (hp : Leads dsu p r) :
      Leads dsu x r

section

variable {n : ℕ} {d : Dsu} {x y p r s : ℤ}

/-- Every variable has a parent. -/
theorem Ranked.get_parent (hd : Ranked n d) (hx : Inside n x) : ∃ p, get x d.parent = some p :=
  Option.isSome_iff_exists.mp (IntArray.get_isSome.mpr (by rw [hd.length_parent]; exact hx))

theorem Ranked.inside_of_get (hd : Ranked n d) (h : get x d.parent = some p) : Inside n x := by
  have hin := IntArray.inside_of_get h
  rwa [hd.length_parent] at hin

/-- The end of a chain is a root. -/
theorem Leads.isRoot (h : Leads d x r) : get r d.parent = some r := by
  induction h with
  | root h => exact h
  | step _ _ _ ih => exact ih

/-- A chain has one end. -/
theorem Leads.unique (h : Leads d x r) (h' : Leads d x s) : r = s := by
  induction h with
  | root h =>
    cases h' with
    | root => rfl
    | step h' hne _ => exact absurd (Option.some.inj (h'.symm.trans h)) hne
  | step h hne _ ih =>
    cases h' with
    | root h' => exact absurd (Option.some.inj (h.symm.trans h')) hne
    | step h' _ hp =>
      obtain rfl := Option.some.inj (h.symm.trans h')
      exact ih hp

/-- Ranks grow up to the root. -/
theorem Leads.rank_le (hd : Ranked n d) (h : Leads d x r) : d.rankOf x ≤ d.rankOf r := by
  induction h with
  | root => exact le_rfl
  | step h hne _ ih => exact (hd.rank_lt h hne).le.trans ih

/-- Ranks rise along a chain. -/
theorem Leads.rank_lt (hd : Ranked n d) (h : Leads d x r) (hne : x ≠ r) :
    d.rankOf x < d.rankOf r := by
  cases h with
  | root => exact absurd rfl hne
  | step h hne' hp => exact (hd.rank_lt h hne').trans_le (hp.rank_le hd)

/-! ## Walking up -/

/-- The keys of greater rank. -/
def above (n : ℕ) (d : Dsu) (x : ℤ) : Finset ℕ :=
  (Finset.range n).filter fun k => d.rankOf x < d.rankOf k

/-- A parent has fewer variables above it. -/
theorem above_card_lt (hin : Inside n p) (hlt : d.rankOf x < d.rankOf p) :
    (above n d p).card < (above n d x).card := by
  refine Finset.card_lt_card (Finset.ssubset_iff_subset_ne.mpr ⟨?_, ?_⟩)
  · intro k hk
    obtain ⟨hk, hrank⟩ := Finset.mem_filter.mp hk
    exact Finset.mem_filter.mpr ⟨hk, hlt.trans hrank⟩
  · intro heq
    have hp : ((p.toNat : ℕ) : ℤ) = p := Int.toNat_of_nonneg hin.1
    have hmem : p.toNat ∈ above n d x := by
      refine Finset.mem_filter.mpr ⟨Finset.mem_range.mpr ?_, by rw [hp]; exact hlt⟩
      have hlt := hin.2
      omega
    rw [← heq] at hmem
    have hself := (Finset.mem_filter.mp hmem).2
    rw [hp] at hself
    exact lt_irrefl _ hself

/-- Fewer than all the variables lie above one. -/
theorem above_card_le (hin : Inside n x) : (above n d x).card < n := by
  have hx : ((x.toNat : ℕ) : ℤ) = x := Int.toNat_of_nonneg hin.1
  have hss : above n d x ⊂ Finset.range n := by
    refine Finset.filter_ssubset.mpr ⟨x.toNat, Finset.mem_range.mpr ?_, ?_⟩
    · have hlt := hin.2
      omega
    · rw [hx]
      exact lt_irrefl _
  have hcard := Finset.card_lt_card hss
  rwa [Finset.card_range] at hcard

/-- The walk reaches the root of its key. -/
theorem leads_findRootIn (hd : Ranked n d) {keys : ℕ} (hx : Inside n x)
    (hkeys : (above n d x).card < keys) : Leads d x (findRootIn keys x d) := by
  induction keys generalizing x with
  | zero => exact absurd hkeys (Nat.not_lt_zero _)
  | succ keys ih =>
    obtain ⟨p, hp⟩ := hd.get_parent hx
    rw [findRootIn, hp]
    dsimp only
    split_ifs with heq
    · subst heq
      exact .root hp
    · have hlt := above_card_lt (hd.inside hp) (hd.rank_lt hp heq)
      exact .step hp heq (ih (hd.inside hp) (by omega))

/-- `findRoot` follows the chain to its end. -/
theorem leads_findRoot (hd : Ranked n d) (hx : Inside n x) : Leads d x (findRoot x d) := by
  refine leads_findRootIn hd hx ?_
  rw [hd.length_parent]
  exact above_card_le hx

/-- What `findRoot` gives is the end of the chain. -/
theorem findRoot_eq_iff (hd : Ranked n d) (hx : Inside n x) : findRoot x d = r ↔ Leads d x r := by
  constructor
  · rintro rfl
    exact leads_findRoot hd hx
  · exact (leads_findRoot hd hx).unique

/-- The recursion of the source. -/
theorem findRoot_eq (hd : Ranked n d) (x : ℤ) :
    findRoot x d = (get x d.parent).elim x fun p => if p = x then x else findRoot p d := by
  by_cases hx : Inside n x
  · obtain ⟨p, hp⟩ := hd.get_parent hx
    rw [hp, Option.elim_some]
    split_ifs with heq
    · subst heq
      exact (findRoot_eq_iff hd hx).mpr (.root hp)
    · exact (findRoot_eq_iff hd hx).mpr (.step hp heq (leads_findRoot hd (hd.inside hp)))
  · have hnone : get x d.parent = none := IntArray.get_eq_none (by rwa [hd.length_parent])
    rw [hnone, Option.elim_none, findRoot]
    cases d.parent.length with
    | zero => rfl
    | succ k => rw [findRootIn, hnone]

/-! ## Compression -/

/-- A key is repointed at its root. -/
theorem ranked_repoint (hd : Ranked n d) (hx : Leads d x r) (hne : x ≠ r) :
    Ranked n { d with parent := set x r d.parent } := by
  have hcases : ∀ {y p}, get y (set x r d.parent) = some p →
      y = x ∧ p = r ∨ y ≠ x ∧ get y d.parent = some p := by
    intro y p h
    by_cases hy : y = x
    · subst hy
      have hin := IntArray.inside_of_get h
      rw [IntArray.length_set] at hin
      rw [IntArray.get_set_self hin] at h
      exact Or.inl ⟨rfl, (Option.some.inj h).symm⟩
    · rw [IntArray.get_set_of_ne hy] at h
      exact Or.inr ⟨hy, h⟩
  refine ⟨by rw [IntArray.length_set, hd.length_parent], hd.length_rank, ?_, ?_⟩
  · intro y p h
    rcases hcases h with ⟨-, rfl⟩ | ⟨-, h⟩
    · exact hd.inside_of_get hx.isRoot
    · exact hd.inside h
  · intro y p h hpy
    have hlt := hx.rank_lt hd hne
    rcases hcases h with ⟨rfl, rfl⟩ | ⟨-, h⟩
    · exact hlt
    · exact hd.rank_lt h hpy

/-- Pointing a variable at its root keeps every chain's end. -/
theorem leads_repoint (hd : Ranked n d) (hx : Leads d x r) (hne : x ≠ r) :
    Leads { d with parent := set x r d.parent } y s ↔ Leads d y s := by
  have hroot : Leads { d with parent := set x r d.parent } r r :=
    .root (by rw [IntArray.get_set_of_ne hne.symm]; exact hx.isRoot)
  have hback : ∀ {y s}, Leads d y s → Leads { d with parent := set x r d.parent } y s := by
    intro y s h
    induction h with
    | @root t h =>
      by_cases ht : t = x
      · subst ht
        exact absurd (hx.unique (.root h)).symm hne
      · exact .root (by rw [IntArray.get_set_of_ne ht]; exact h)
    | @step y p t h hpy hp ih =>
      by_cases hy : y = x
      · subst hy
        obtain rfl := hx.unique (.step h hpy hp)
        exact .step (IntArray.get_set_self (IntArray.inside_of_get h) r) hne.symm hroot
      · exact .step (by rw [IntArray.get_set_of_ne hy]; exact h) hpy ih
  constructor
  · intro h
    have hin : Inside n y := by
      cases h with
      | root h => exact (ranked_repoint hd hx hne).inside_of_get h
      | step h _ _ => exact (ranked_repoint hd hx hne).inside_of_get h
    have hfind := leads_findRoot hd hin
    rw [h.unique (hback hfind)]
    exact hfind
  · exact hback

/-- The compression of a chain changes no root. -/
theorem compressIn_spec (hd : Ranked n d) (hx : Leads d x r) (keys : ℕ) :
    Ranked n (compressIn keys x r d) ∧
      ∀ {y s}, Leads (compressIn keys x r d) y s ↔ Leads d y s := by
  induction keys generalizing x d with
  | zero => exact ⟨hd, Iff.rfl⟩
  | succ keys ih =>
    rw [compressIn]
    cases hx with
    | root h =>
      rw [h]
      dsimp only
      rw [if_pos rfl]
      exact ⟨hd, Iff.rfl⟩
    | @step x p r h hne hp =>
      have hx : Leads d x r := .step h hne hp
      have hxr : x ≠ r := by
        rintro rfl
        exact hne (Option.some.inj (h.symm.trans hx.isRoot))
      rw [h]
      dsimp only
      rw [if_neg hne]
      obtain ⟨hranked, hleads⟩ :=
        ih (ranked_repoint hd hx hxr) ((leads_repoint hd hx hxr).mpr hp)
      exact ⟨hranked, fun {y s} => hleads.trans (leads_repoint hd hx hxr)⟩

/-- `find` gives the root and keeps the forest, whatever it compresses. -/
theorem find_spec (hd : Ranked n d) (hx : Inside n x) : Leads d x (find x d).1 ∧
    Ranked n (find x d).2 ∧ ∀ {y s}, Leads (find x d).2 y s ↔ Leads d y s := by
  have hleads := leads_findRoot hd hx
  exact ⟨hleads, compressIn_spec hd hleads _⟩

/-! ## Union -/

/-- Chains depend on the parents alone. -/
theorem leads_congr {d' : Dsu} (h : d'.parent = d.parent) (hx : Leads d x r) : Leads d' x r := by
  induction hx with
  | root hr => exact .root (by rw [h]; exact hr)
  | step hx hne _ ih => exact .step (by rw [h]; exact hx) hne ih

/-- Raising a rank raises it at that root and nowhere else. -/
theorem rankOf_raise (hr : Inside d.rank.length r) (k y : ℤ) :
    Dsu.rankOf { d with rank := set r k d.rank } y = if y = r then k else d.rankOf y := by
  rw [rankOf, IntArray.get_set hr]
  split_ifs <;> rfl

/-- The rank of a root is raised. -/
theorem ranked_raise (hd : Ranked n d) (hr : get r d.parent = some r) (k : ℤ)
    (hk : d.rankOf r ≤ k) : Ranked n { d with rank := set r k d.rank } := by
  have hin : Inside d.rank.length r := by
    rw [hd.length_rank]
    exact hd.inside_of_get hr
  refine ⟨hd.length_parent, by rw [IntArray.length_set, hd.length_rank], hd.inside, ?_⟩
  intro y p h hne
  have hy : y ≠ r := by
    rintro rfl
    exact hne (Option.some.inj (h.symm.trans hr))
  have hlt := hd.rank_lt h hne
  rw [rankOf_raise hin, rankOf_raise hin, if_neg hy]
  split_ifs with hp
  · subst hp
    exact hlt.trans_le hk
  · exact hlt

/-- A root is put under another of greater rank. -/
theorem ranked_link (hd : Ranked n d) (hr : get r d.parent = some r) (hs : get s d.parent = some s)
    (hlt : d.rankOf r < d.rankOf s) : Ranked n { d with parent := set r s d.parent } := by
  have hin := IntArray.inside_of_get hr
  refine ⟨by rw [IntArray.length_set, hd.length_parent], hd.length_rank, ?_, ?_⟩
  · intro y p h
    rw [IntArray.get_set hin] at h
    split_ifs at h
    · rw [← Option.some.inj h]
      exact hd.inside_of_get hs
    · exact hd.inside h
  · intro y p h hne
    rw [IntArray.get_set hin] at h
    split_ifs at h with hy
    · rw [hy, ← Option.some.inj h]
      exact hlt
    · exact hd.rank_lt h hne

/-- Linking two roots moves the chains that end at the first. -/
theorem leads_link (hr : get r d.parent = some r) (hs : get s d.parent = some s) (hne : r ≠ s)
    {t : ℤ} (h : Leads d y t) :
    Leads { d with parent := set r s d.parent } y (if t = r then s else t) := by
  have hin := IntArray.inside_of_get hr
  have hroot : Leads { d with parent := set r s d.parent } s s :=
    .root (by rw [IntArray.get_set_of_ne hne.symm]; exact hs)
  induction h with
  | @root t h =>
    split_ifs with ht
    · subst ht
      exact .step (IntArray.get_set_self hin s) hne.symm hroot
    · exact .root (by rw [IntArray.get_set_of_ne ht]; exact h)
  | @step y p t h hpy _ ih =>
    have hy : y ≠ r := by
      rintro rfl
      exact hpy (Option.some.inj (h.symm.trans hr))
    exact .step (by rw [IntArray.get_set_of_ne hy]; exact h) hpy ih

/-- One root goes under the other. -/
theorem union_spec {a b : ℤ} (hd : Ranked n d) (ha : Inside n a) (hb : Inside n b) :
    Ranked n (union a b d) ∧ ∃ u v,
      (u = findRoot a d ∧ v = findRoot b d ∨ u = findRoot b d ∧ v = findRoot a d) ∧
      ∀ {y t}, Leads d y t → Leads (union a b d) y (if t = u then v else t) := by
  obtain ⟨hra, hd₁, hleads₁⟩ := find_spec hd ha
  obtain ⟨hrb, hd₂, hleads₂⟩ := find_spec hd₁ hb
  have hleads : ∀ {y s}, Leads (find b (find a d).2).2 y s ↔ Leads d y s :=
    fun {y s} => hleads₂.trans hleads₁
  have hroot : (find b (find a d).2).1 = findRoot b d :=
    (hleads₁.mp hrb).unique (leads_findRoot hd hb)
  rw [union]
  dsimp only
  rw [hroot]
  have hra₂ := (hleads.mpr hra).isRoot
  have hrb₂ := (hleads.mpr (leads_findRoot hd hb)).isRoot
  change get (findRoot a d) _ = some (findRoot a d) at hra₂
  rw [show (find a d).1 = findRoot a d from rfl]
  -- one root already, or the one of smaller rank goes under the other
  split_ifs with heq hlt hgt
  · refine ⟨hd₂, findRoot a d, findRoot b d, Or.inl ⟨rfl, rfl⟩, fun {y t} h => ?_⟩
    have ht : (if t = findRoot a d then findRoot b d else t) = t := by
      split_ifs with ht
      · rw [ht, heq]
      · rfl
    rw [ht]
    exact hleads.mpr h
  · exact ⟨ranked_link hd₂ hra₂ hrb₂ hlt, findRoot a d, findRoot b d, Or.inl ⟨rfl, rfl⟩,
      fun {y t} h => leads_link hra₂ hrb₂ heq (hleads.mpr h)⟩
  · exact ⟨ranked_link hd₂ hrb₂ hra₂ hgt, findRoot b d, findRoot a d, Or.inr ⟨rfl, rfl⟩,
      fun {y t} h => leads_link hrb₂ hra₂ (Ne.symm heq) (hleads.mpr h)⟩
  · -- the ranks are equal, and that of the first root goes up
    have hin := hd₂.inside_of_get hra₂
    rw [← hd₂.length_rank] at hin
    have hraised := ranked_raise hd₂ hra₂ (rankOf (find b (find a d).2).2 (findRoot a d) + 1)
      (by omega)
    have hlt : Dsu.rankOf { (find b (find a d).2).2 with
          rank := set (findRoot a d) (rankOf (find b (find a d).2).2 (findRoot a d) + 1)
            (find b (find a d).2).2.rank } (findRoot b d)
        < Dsu.rankOf { (find b (find a d).2).2 with
          rank := set (findRoot a d) (rankOf (find b (find a d).2).2 (findRoot a d) + 1)
            (find b (find a d).2).2.rank } (findRoot a d) := by
      rw [rankOf_raise hin, rankOf_raise hin, if_neg (Ne.symm heq), if_pos rfl]
      exact Int.lt_add_one_of_le (not_lt.mp hlt)
    refine ⟨ranked_link hraised hrb₂ hra₂ hlt, findRoot b d, findRoot a d, Or.inr ⟨rfl, rfl⟩,
      fun {y t} h => ?_⟩
    refine leads_congr ?_ (leads_link hrb₂ hra₂ (Ne.symm heq) (hleads.mpr h))
    rfl

/-- A union merges the classes of its keys and no others. -/
theorem findRoot_union {a b : ℤ} (hd : Ranked n d) (ha : Inside n a) (hb : Inside n b)
    (hx : Inside n x) (hy : Inside n y) :
    findRoot x (union a b d) = findRoot y (union a b d) ↔
      findRoot x d = findRoot y d ∨
      (findRoot x d = findRoot a d ∧ findRoot y d = findRoot b d) ∨
      (findRoot x d = findRoot b d ∧ findRoot y d = findRoot a d) := by
  obtain ⟨hranked, u, v, huv, hleads⟩ := union_spec hd ha hb
  have hroot : ∀ {z}, Inside n z → findRoot z (union a b d)
      = if findRoot z d = u then v else findRoot z d :=
    fun hz => (findRoot_eq_iff hranked hz).mpr (hleads (leads_findRoot hd hz))
  rw [hroot hx, hroot hy]
  rcases huv with ⟨rfl, rfl⟩ | ⟨rfl, rfl⟩
  · split_ifs <;> grind
  · split_ifs <;> grind

/-! ## Many unions -/

/-- The unions of a list of pairs. -/
def unions (pairs : List (ℤ × ℤ)) (d : Dsu) : Dsu := pairs.foldl (fun d e => union e.1 e.2 d) d

/-- The forest of lone variables is ranked. -/
theorem ranked_empty (n : ℕ) : Ranked n (empty n) := by
  have hget : ∀ {x p}, get x (empty n).parent = some p → p = x ∧ Inside n x := by
    intro x p h
    have hin := IntArray.inside_of_get h
    rw [empty, IntArray.length_tabulate] at hin
    rw [empty, IntArray.get_tabulate hin] at h
    exact ⟨(Option.some.inj h).symm, hin⟩
  refine ⟨IntArray.length_tabulate _ _, IntArray.length_repeated _ _, ?_, ?_⟩
  · intro x p h
    obtain ⟨rfl, hin⟩ := hget h
    exact hin
  · intro x p h hne
    exact absurd (hget h).1 hne

/-- A lone variable is its own root. -/
theorem findRoot_empty (hx : Inside n x) : findRoot x (empty n) = x :=
  (findRoot_eq_iff (ranked_empty n) hx).mpr (.root (IntArray.get_tabulate hx id))

/-- Any number of unions keep the forest ranked. -/
theorem ranked_unions {pairs : List (ℤ × ℤ)} (hpairs : ∀ e ∈ pairs, Inside n e.1 ∧ Inside n e.2)
    (hd : Ranked n d) : Ranked n (unions pairs d) := by
  induction pairs generalizing d with
  | nil => exact hd
  | cons e pairs ih =>
    obtain ⟨he, hpairs⟩ := List.forall_mem_cons.mp hpairs
    exact ih hpairs (union_spec hd he.1 he.2).1

/-- Classes are never split. -/
theorem findRoot_unions_of_eq {pairs : List (ℤ × ℤ)}
    (hpairs : ∀ e ∈ pairs, Inside n e.1 ∧ Inside n e.2) (hd : Ranked n d) (hx : Inside n x)
    (hy : Inside n y) (h : findRoot x d = findRoot y d) :
    findRoot x (unions pairs d) = findRoot y (unions pairs d) := by
  induction pairs generalizing d with
  | nil => exact h
  | cons e pairs ih =>
    obtain ⟨he, hpairs⟩ := List.forall_mem_cons.mp hpairs
    exact ih hpairs (union_spec hd he.1 he.2).1
      ((findRoot_union hd he.1 he.2 hx hy).mpr (Or.inl h))

/-- What was united has one root. -/
theorem findRoot_unions_of_mem {pairs : List (ℤ × ℤ)}
    (hpairs : ∀ e ∈ pairs, Inside n e.1 ∧ Inside n e.2) (hd : Ranked n d) (h : (x, y) ∈ pairs) :
    findRoot x (unions pairs d) = findRoot y (unions pairs d) := by
  induction pairs generalizing d with
  | nil => cases h
  | cons e pairs ih =>
    obtain ⟨he, htail⟩ := List.forall_mem_cons.mp hpairs
    have hd' := (union_spec hd he.1 he.2).1
    rcases List.mem_cons.mp h with rfl | h
    · have hmerged := (findRoot_union hd he.1 he.2 he.1 he.2).mpr (Or.inr (Or.inl ⟨rfl, rfl⟩))
      show findRoot x (unions pairs (union x y d)) = findRoot y (unions pairs (union x y d))
      exact findRoot_unions_of_eq htail hd' he.1 he.2 hmerged
    · exact ih htail hd' h

/-- No classes are merged but those that the pairs connect. -/
theorem eqvGen_of_findRoot {r : ℤ → ℤ → Prop} {pairs : List (ℤ × ℤ)}
    (hpairs : ∀ e ∈ pairs, Inside n e.1 ∧ Inside n e.2) (hr : ∀ e ∈ pairs, r e.1 e.2)
    (hd : Ranked n d) (hstart : ∀ {x y}, Inside n x → Inside n y → findRoot x d = findRoot y d →
      Relation.EqvGen r x y)
    (hx : Inside n x) (hy : Inside n y)
    (h : findRoot x (unions pairs d) = findRoot y (unions pairs d)) :
    Relation.EqvGen r x y := by
  induction pairs generalizing d with
  | nil => exact hstart hx hy h
  | cons e pairs ih =>
    obtain ⟨he, hpairs⟩ := List.forall_mem_cons.mp hpairs
    obtain ⟨hre, hr⟩ := List.forall_mem_cons.mp hr
    refine ih hpairs hr (union_spec hd he.1 he.2).1 (fun {x y} hx hy h => ?_) h
    rcases (findRoot_union hd he.1 he.2 hx hy).mp h with h | ⟨h₁, h₂⟩ | ⟨h₁, h₂⟩
    · exact hstart hx hy h
    · exact .trans _ _ _ (hstart hx he.1 h₁) (.trans _ _ _ (.rel _ _ hre)
        (.symm _ _ (hstart hy he.2 h₂)))
    · exact .trans _ _ _ (hstart hx he.2 h₁) (.trans _ _ _ (.symm _ _ (.rel _ _ hre))
        (.symm _ _ (hstart hy he.1 h₂)))

/-- The classes after any unions are what their pairs connect. -/
theorem findRoot_unions_iff {pairs : List (ℤ × ℤ)}
    (hpairs : ∀ e ∈ pairs, Inside n e.1 ∧ Inside n e.2) (hx : Inside n x) (hy : Inside n y) :
    findRoot x (unions pairs (empty n)) = findRoot y (unions pairs (empty n)) ↔
      Relation.EqvGen (fun u v => (u, v) ∈ pairs) x y := by
  have hd := ranked_empty n
  constructor
  · refine eqvGen_of_findRoot hpairs (fun e he => he) hd (fun {x y} hx hy h => ?_) hx hy
    rw [findRoot_empty hx, findRoot_empty hy] at h
    rw [h]
    exact .refl y
  · intro h
    clear hx hy
    induction h with
    | rel x y h => exact findRoot_unions_of_mem hpairs hd h
    | refl => rfl
    | symm _ _ _ ih => exact ih.symm
    | trans _ _ _ _ _ ih ih' => exact ih.trans ih'

end

end Dsu

end Borrow

import EcoCompiler.GraphSearch

/-! # The graph that is handed to the searches

    * `addVertex_built` — one more triple, with the self-loop bits written a word at a time;
    * `buildGraphs_contract` — the three parts agree, for every number of triples;
    * `binarySearch_spec` — a dependency key finds the triple it names. -/

namespace Graph

variable {N κ : Type}

/-! ## Building -/

/-- The vertices that vertex `i` of the triples has an edge to. -/
def edgesAt (keyToId : κ → Option ℕ) (triples : List (Triple N κ)) (i : ℕ) : List ℕ :=
  (triples[i]?.map fun t => t.deps.filterMap keyToId).getD []

theorem edgesAt_append (keyToId : κ → Option ℕ) (p : List (Triple N κ)) (t : Triple N κ) (i : ℕ) :
    edgesAt keyToId (p ++ [t]) i
      = if i = p.length then t.deps.filterMap keyToId else edgesAt keyToId p i := by
  rw [edgesAt, edgesAt]
  rcases Nat.lt_trichotomy i p.length with h | rfl | h
  · rw [if_neg h.ne, List.getElem?_append_left h]
  · rw [if_pos rfl, List.getElem?_concat_length]
    rfl
  · rw [if_neg h.ne', List.getElem?_eq_none (by simp; omega), List.getElem?_eq_none (by omega)]

theorem edgesAt_of_le {keyToId : κ → Option ℕ} {p : List (Triple N κ)} {i : ℕ}
    (h : p.length ≤ i) : edgesAt keyToId p i = [] := by
  rw [edgesAt, List.getElem?_eq_none h]
  rfl

/-- The vertices with an edge to themselves. -/
def selfLoop (keyToId : κ → Option ℕ) (triples : List (Triple N κ)) (i : ℕ) : Bool :=
  (edgesAt keyToId triples i).contains i

theorem selfLoop_append_of_lt {keyToId : κ → Option ℕ} {p : List (Triple N κ)} {t : Triple N κ}
    {i : ℕ} (h : i < p.length) : selfLoop keyToId (p ++ [t]) i = selfLoop keyToId p i := by
  rw [selfLoop, edgesAt_append, if_neg h.ne]
  rfl

/-- The reversed edges of one vertex are added to what is there. -/
theorem mem_foldl_insert (idx : ℕ) (edges : List ℕ) (d : Dict ℕ (List ℕ)) (i v : ℕ) :
    v ∈ ((edges.foldl (fun tr target => tr.insert target (idx :: (tr.get target).getD [])) d).get
        i).getD [] ↔ v ∈ (d.get i).getD [] ∨ (v = idx ∧ i ∈ edges) := by
  induction edges generalizing d with
  | nil => simp
  | cons e edges ih =>
    rw [List.foldl_cons, ih, Dict.get_insert, List.mem_cons]
    by_cases h : i = e
    · subst h
      simp only [if_true, Option.getD_some, List.mem_cons, true_or, and_true]
      tauto
    · rw [if_neg h]
      simp only [h, false_or]

/-- What the fold has built from the triples `p`. -/
structure Built (keyToId : κ → Option ℕ) (n : ℕ) (p : List (Triple N κ)) (acc : Building) :
    Prop where
  idx : acc.idx = p.length
  fwd : ∀ i, (acc.fwd.get i).getD [] = edgesAt keyToId p i
  trans : ∀ i v, v ∈ (acc.trans.get i).getD [] ↔ i ∈ edgesAt keyToId p v
  size : acc.loops.size = n
  words : acc.loops.words.length = (n + 31) / 32
  written : ∀ v < p.length, v / 32 < p.length / 32 ∨ p.length = n →
    acc.loops.stored v = selfLoop keyToId p v
  word : p.length < n → ∀ b < 32, acc.loopWord.getLsbD b
    = (decide (b < p.length % 32) && selfLoop keyToId p (32 * (p.length / 32) + b))

/-- The word with the bit of the next vertex. -/
theorem wordWithBit_getLsbD {keyToId : κ → Option ℕ} {p : List (Triple N κ)} {t : Triple N κ}
    {word : BitVec 32} (hword : ∀ b < 32, word.getLsbD b
      = (decide (b < p.length % 32) && selfLoop keyToId p (32 * (p.length / 32) + b)))
    {b : ℕ} (hb : b < 32) :
    (if (t.deps.filterMap keyToId).contains p.length
      then word ||| (1 : BitVec 32) <<< (p.length % 32) else word).getLsbD b
      = (decide (b < p.length % 32 + 1) &&
          selfLoop keyToId (p ++ [t]) (32 * (p.length / 32) + b)) := by
  have hself : selfLoop keyToId (p ++ [t]) p.length
      = (t.deps.filterMap keyToId).contains p.length := by
    rw [selfLoop, edgesAt_append, if_pos rfl]
  have hdiv := Nat.div_add_mod p.length 32
  have hor : (if (t.deps.filterMap keyToId).contains p.length
      then word ||| (1 : BitVec 32) <<< (p.length % 32) else word).getLsbD b
      = (word.getLsbD b || (decide (b = p.length % 32) &&
          (t.deps.filterMap keyToId).contains p.length)) := by
    split
    · next h => rw [BitVec.getLsbD_or, BitSet.getLsbD_mask _ hb, h, Bool.and_true]
    · next h => rw [Bool.eq_false_of_not_eq_true h, Bool.and_false, Bool.or_false]
  rw [hor, hword b hb]
  rcases Nat.lt_trichotomy b (p.length % 32) with hlt | heq | hgt
  · have hi : 32 * (p.length / 32) + b < p.length := by omega
    rw [selfLoop_append_of_lt hi]
    simp [hlt, hlt.ne, Nat.lt_succ_of_lt hlt]
  · have hi : 32 * (p.length / 32) + b = p.length := by omega
    rw [hi, hself]
    simp [heq]
  · simp [hgt.ne', Nat.not_lt.mpr hgt.le, Nat.not_lt.mpr (Nat.succ_le_of_lt hgt)]

/-- One more triple. -/
theorem addVertex_built {keyToId : κ → Option ℕ} {n : ℕ} {p : List (Triple N κ)} {acc : Building}
    (t : Triple N κ) (h : Built keyToId n p acc) (hlt : p.length < n) :
    Built keyToId n (p ++ [t]) (addVertex keyToId n acc t) := by
  have hidx := h.idx
  have hlen : (p ++ [t]).length = p.length + 1 := List.length_append
  have hword := fun b (hb : b < 32) => wordWithBit_getLsbD (t := t) (h.word hlt) hb
  have hmod := Nat.div_add_mod p.length 32
  have hw : p.length / 32 < acc.loops.words.length := by
    rw [h.words]
    omega
  refine ⟨?_, fun i => ?_, fun i v => ?_, ?_, ?_, fun v hv hdone => ?_, fun hnext b hb => ?_⟩
  · rw [hlen, ← hidx]
    rfl
  · have hinsert : ((addVertex keyToId n acc t).fwd.get i)
        = if i = acc.idx then some (t.deps.filterMap keyToId) else acc.fwd.get i :=
      Dict.get_insert ..
    rw [hinsert, edgesAt_append, hidx, ← h.fwd i]
    split <;> rfl
  · have hfold := mem_foldl_insert acc.idx (t.deps.filterMap keyToId) acc.trans i v
    rw [edgesAt_append]
    refine hfold.trans ?_
    rw [h.trans i v, hidx]
    split
    · next heq =>
      rw [heq, edgesAt_of_le le_rfl]
      simp
    · next hne => simp [hne]
  · simp only [addVertex]
    split
    · rw [BitSet.setWord_size]
      exact h.size
    · exact h.size
  · simp only [addVertex]
    split
    · rw [BitSet.setWord_length]
      exact h.words
    · exact h.words
  · rw [hlen] at hv hdone
    simp only [addVertex, hidx]
    split
    · next hflush =>
      rw [BitSet.stored_setWord hw]
      split
      · next hsame =>
        -- the bit is in the word just written
        rw [hword (v % 32) (Nat.mod_lt _ (by decide))]
        have hv' : 32 * (p.length / 32) + v % 32 = v := by omega
        have hbit : v % 32 < p.length % 32 + 1 := by omega
        rw [hv', decide_eq_true hbit, Bool.true_and]
      · next hother =>
        have hold : v < p.length := by omega
        rw [h.written v hold (Or.inl (by omega)), selfLoop_append_of_lt hold]
    · next hkeep =>
      have hold : v < p.length := by omega
      rw [h.written v hold (Or.inl (by omega)), selfLoop_append_of_lt hold]
  · rw [hlen] at hnext ⊢
    simp only [addVertex, hidx]
    split
    · next hflush =>
      -- a new word begins
      have hzero : (p.length + 1) % 32 = 0 := by omega
      rw [hzero, decide_eq_false (Nat.not_lt_zero b), Bool.false_and]
      exact BitVec.getLsbD_zero
    · next hkeep =>
      have hdiv : (p.length + 1) / 32 = p.length / 32 := by omega
      have hoff : (p.length + 1) % 32 = p.length % 32 + 1 := by omega
      rw [hdiv, hoff]
      exact hword b hb

theorem foldl_built {keyToId : κ → Option ℕ} {n : ℕ} (rest : List (Triple N κ))
    {p : List (Triple N κ)} {acc : Building} (h : Built keyToId n p acc)
    (hlen : (p ++ rest).length ≤ n) :
    Built keyToId n (p ++ rest) (rest.foldl (addVertex keyToId n) acc) := by
  induction rest generalizing p acc with
  | nil => rwa [List.append_nil]
  | cons t rest ih =>
    rw [List.length_append, List.length_cons] at hlen
    have hnext := ih (addVertex_built t h (by omega)) (by simp; omega)
    rwa [List.append_assoc] at hnext

theorem built_start (keyToId : κ → Option ℕ) (n : ℕ) : Built keyToId n ([] : List (Triple N κ))
    { idx := 0, fwd := Dict.empty, trans := Dict.empty, loops := BitSet.fromSize n, loopWord := 0 }
    where
  idx := rfl
  fwd _ := rfl
  trans i v := by
    rw [edgesAt_of_le (Nat.zero_le v)]
    simp
  size := rfl
  words := List.length_replicate
  written _ hv := absurd hv (Nat.not_lt_zero _)
  word _ b _ := by
    simp

theorem neighbors_map_range {n : ℕ} {f : ℕ → List ℕ} (hf : ∀ i, n ≤ i → f i = []) (v : ℕ) :
    neighbors ((List.range n).map f) v = f v := by
  rw [neighbors, List.getElem?_map]
  rcases Nat.lt_or_ge v n with h | h
  · rw [List.getElem?_range h]
    rfl
  · rw [List.getElem?_eq_none (by simpa using h), hf v h]
    rfl

/-- What the fold builds from all the triples. -/
theorem built_all (keyToId : κ → Option ℕ) (triples : List (Triple N κ)) :
    Built keyToId triples.length triples (triples.foldl (addVertex keyToId triples.length)
      { idx := 0, fwd := Dict.empty, trans := Dict.empty,
        loops := BitSet.fromSize triples.length, loopWord := 0 }) :=
  foldl_built triples (built_start keyToId triples.length) le_rfl

/-- The edges of the graph are those of the triples. -/
theorem neighbors_fwd (keyToId : κ → Option ℕ) (triples : List (Triple N κ)) (v : ℕ) :
    neighbors (buildGraphs triples keyToId triples.length).fwd v = edgesAt keyToId triples v := by
  have built := built_all keyToId triples
  have hmap := neighbors_map_range (n := triples.length) (v := v)
    (f := fun i => edgesAt keyToId triples i) fun i hi => edgesAt_of_le hi
  rw [← hmap]
  refine congrArg (fun l => neighbors l v) (List.map_congr_left fun i _ => built.fwd i)

/-- The three parts of the graph agree. -/
theorem buildGraphs_contract (keyToId : κ → Option ℕ) (triples : List (Triple N κ))
    (bound : ∀ k i, keyToId k = some i → i < triples.length) :
    (buildGraphs triples keyToId triples.length).Contract := by
  have built := built_all keyToId triples
  have edges_lt : ∀ v, ∀ w ∈ edgesAt keyToId triples v, w < triples.length := by
    intro v w hw
    rw [edgesAt] at hw
    cases ht : triples[v]? with
    | none =>
      rw [ht] at hw
      exact absurd hw List.not_mem_nil
    | some t =>
      rw [ht] at hw
      obtain ⟨k, -, hk⟩ := List.mem_filterMap.mp hw
      exact bound k w hk
  refine ⟨⟨?_, ?_⟩, fun v w hw => ?_, fun v w => ?_, fun v => ?_⟩
  · exact (List.length_map ..).trans List.length_range
  · exact (List.length_map ..).trans List.length_range
  · rw [neighbors_fwd] at hw
    exact edges_lt v w hw
  · rw [neighbors_fwd, ← built.trans w v]
    -- no edge leads outside the triples, so nothing is lost when the array is made
    have hout : ∀ i, triples.length ≤ i → ((triples.foldl (addVertex keyToId triples.length)
        { idx := 0, fwd := Dict.empty, trans := Dict.empty,
          loops := BitSet.fromSize triples.length, loopWord := 0 }).trans.get i).getD [] = [] := by
      intro i hi
      refine List.eq_nil_iff_forall_not_mem.mpr fun u hu => ?_
      have := edges_lt u i ((built.trans i u).mp hu)
      omega
    have hmap := neighbors_map_range hout w
    rw [← hmap]
    exact Iff.rfl
  · rw [neighbors_fwd, BitSet.member_iff]
    have hsize : (buildGraphs triples keyToId triples.length).selfLoops.size = triples.length :=
      built.size
    rw [hsize]
    constructor
    · rintro ⟨hv, hstored⟩
      have hloop : selfLoop keyToId triples v = true :=
        (built.written v hv (Or.inr rfl)).symm.trans hstored
      simpa [selfLoop] using hloop
    · intro hv
      have hlt := edges_lt v v hv
      refine ⟨hlt, (built.written v hlt (Or.inr rfl)).trans ?_⟩
      simpa [selfLoop] using hv

/-! ## Keys -/

variable [LinearOrder κ]

theorem arrayGet_of_nonneg {α : Type} (arr : List α) {i : ℤ} (h : 0 ≤ i) :
    arrayGet arr i = arr[i.toNat]? := by
  rw [arrayGet, if_neg (by omega)]

/-- In an ascending array without repetitions, the search between two indices finds the index
    of the key if it lies between them. -/
theorem binarySearch_spec {arr : List κ} (sorted : arr.Pairwise (· < ·)) (target : κ) (lo hi : ℤ)
    (hlo : 0 ≤ lo) (hhi : hi < arr.length) (i : ℕ) :
    binarySearch arr target lo hi = some i ↔
      lo ≤ i ∧ (i : ℤ) ≤ hi ∧ arr[i]? = some target := by
  -- the keys ascend, so indices and keys compare alike
  have order : ∀ {j k : ℕ} {a b : κ}, arr[j]? = some a → arr[k]? = some b → (j < k ↔ a < b) := by
    intro j k a b hj hk
    obtain ⟨hjlt, rfl⟩ := List.getElem?_eq_some_iff.mp hj
    obtain ⟨hklt, rfl⟩ := List.getElem?_eq_some_iff.mp hk
    have hrel := List.pairwise_iff_getElem.mp sorted
    rcases Nat.lt_trichotomy j k with h | rfl | h
    · exact iff_of_true h (hrel j k hjlt hklt h)
    · simp
    · exact iff_of_false (by omega) (hrel k j hklt hjlt h).not_gt
  induction lo, hi using binarySearch.induct arr target with
  | case1 lo hi hlt =>
    rw [binarySearch, if_pos hlt]
    refine iff_of_false (by rintro ⟨⟩) fun h => ?_
    omega
  -- the middle lies inside the array
  | case2 lo hi hle mid hnone =>
    have hmid : lo ≤ mid ∧ mid ≤ hi := by omega
    rw [arrayGet_of_nonneg arr (by omega), List.getElem?_eq_none_iff] at hnone
    omega
  | case3 lo hi hle mid hsome =>
    have hmid : lo ≤ mid ∧ mid ≤ hi := by omega
    rw [binarySearch, if_neg hle]
    simp only [show lo + (hi - lo) / 2 = mid from rfl, hsome, if_true, Option.some.injEq]
    rw [arrayGet_of_nonneg arr (by omega)] at hsome
    constructor
    · rintro rfl
      exact ⟨by omega, by omega, hsome⟩
    · rintro ⟨-, -, hi⟩
      have h₁ := order hsome hi
      have h₂ := order hi hsome
      simp only [lt_irrefl, iff_false] at h₁ h₂
      omega
  | case4 lo hi hle mid midVal hsome hne hlt ih =>
    have hmid : lo ≤ mid ∧ mid ≤ hi := by omega
    rw [binarySearch, if_neg hle]
    simp only [show lo + (hi - lo) / 2 = mid from rfl, hsome, if_neg hne, if_pos hlt]
    rw [arrayGet_of_nonneg arr (by omega)] at hsome
    refine (ih hlo (by omega)).trans ?_
    constructor
    · rintro ⟨hl, hr, hi⟩
      exact ⟨hl, by omega, hi⟩
    · rintro ⟨hl, -, hi⟩
      have := (order hi hsome).mpr hlt
      exact ⟨hl, by omega, hi⟩
  | case5 lo hi hle mid midVal hsome hne hge ih =>
    have hmid : lo ≤ mid ∧ mid ≤ hi := by omega
    rw [binarySearch, if_neg hle]
    simp only [show lo + (hi - lo) / 2 = mid from rfl, hsome, if_neg hne, if_neg hge]
    rw [arrayGet_of_nonneg arr (by omega)] at hsome
    refine (ih (by omega) hhi).trans ?_
    constructor
    · rintro ⟨hl, hr, hi⟩
      exact ⟨by omega, hr, hi⟩
    · rintro ⟨-, hr, hi⟩
      have hgt : midVal < target := lt_of_le_of_ne (not_lt.mp hge) (Ne.symm hne)
      have := (order hsome hi).mpr hgt
      exact ⟨by omega, hr, hi⟩

end Graph

import EcoCompiler.BlockTable

/-! # Blocks, their positions and their generations

    * `Sound` — what a table keeps of its live and released ids;
    * `Inv` — the invariant, with the generations an id has had;
    * `table_sound_iff` — the sequences of operations throughout which a table is sound. -/

namespace BlockTable

open Function ArrayOrder

/-- The ids and the positions of a table agree, and so do its two ways of releasing a block. -/
structure Sound (t : BlockTable) : Prop where
  nodup : t.iteration.Nodup
  live : ∀ id, id ∈ t.iteration ↔ t.isLive id = true
  position : ∀ id p, t.iteration[p]? = some id ↔ t.isLive id = true ∧ t.posOf id = p
  free_nodup : t.freeStack.Nodup
  released : ∀ id, id ∈ t.freeStack ↔ id < t.high_water ∧ t.isLive id = false
  below : ∀ id, id < t.high_water ↔ id ∈ t.iteration ∨ id ∈ t.freeStack
  swapRemove : ∀ id, t.isLive id = true → ∀ last ∈ t.iteration.getLast?,
    (t.swapRemove id).iteration = (t.iteration.set (t.posOf id) last).dropLast
  eraseOrdered : ∀ id, t.isLive id = true →
    (t.eraseOrdered id).iteration = t.iteration.erase id

/-- A sound table that never gave one id the same generation twice. -/
def Holds (s : Traced) : Prop := Sound s.1 ∧ s.2.Nodup

/-- The generations an id has had. -/
def incarnations (handedOut : List (ℕ × ℕ)) (id : ℕ) : List ℕ :=
  (handedOut.filter (·.1 = id)).map Prod.snd

/-- The id that the next block gets. -/
def nextId (t : BlockTable) : ℕ :=
  if 0 < t.free_count then t.free (t.free_count - 1) else t.high_water

/-- A new block finds an id: below `2 ^ 32 - 1` if it was never used, and one that was not handed
    out `2 ^ 32` times before. -/
def Fit (s : Traced) : Op → Prop
  | .add _ _ => (s.1.free_count = 0 → s.1.high_water + 1 < 2 ^ 32) ∧
      (incarnations s.2 s.1.nextId).length < 2 ^ 32
  | _ => True

/-- Each step that is taken finds an id. -/
def Fits (s : Traced) : List Op → Prop
  | [] => True
  | op :: ops => ∀ s' ∈ step s op, Fit s op ∧ Fits s' ops

/-- The generations of the first `k` incarnations. -/
def generations (k : ℕ) : List ℕ := (List.range k).map fun i => uint32 (i + 1)

/-- What holds of a table between two calls: `pos_of` inverts `order`, the live ids are those of
    the order, the released ones those on the stack, and generations count the times handed out. -/
structure Inv (s : Traced) : Prop where
  inverse : Inverse s.1.order s.1.pos_of s.1.size
  live : ∀ id, id ∈ s.1.iteration ↔ s.1.isLive id = true
  free_nodup : s.1.freeStack.Nodup
  released : ∀ id, id ∈ s.1.freeStack ↔ id < s.1.high_water ∧ s.1.isLive id = false
  count : s.1.size + s.1.free_count = s.1.high_water
  high_water : s.1.high_water < 2 ^ 32
  capacity : s.1.high_water ≤ s.1.capacity
  handed_out : ∀ id, ∃ k ≤ 2 ^ 32, incarnations s.2 id = generations k ∧ s.1.gen id = uint32 k

variable {t : BlockTable} {s s' : Traced} {id : ℕ}

/-! ## Releasing a block -/

/-- A table from which a block was released. -/
def released (t : BlockTable) (order pos_of : ℕ → ℕ) (id : ℕ) : BlockTable :=
  { t with order := order, pos_of := pos_of, size := t.size - 1 }.retireId id

theorem isLive_iff : t.isLive id = true ↔ id < t.high_water ∧ t.live id ≠ 0 := by
  simp [isLive]

/-- Releasing an id ends that id's life and no other's. -/
theorem isLive_released (order pos_of : ℕ → ℕ) (other : ℕ) :
    (t.released order pos_of id).isLive other = true ↔ other ≠ id ∧ t.isLive other = true := by
  rw [isLive_iff, isLive_iff]
  show other < t.high_water ∧ update t.live id 0 other ≠ 0 ↔ _
  by_cases h : other = id
  · simp [h]
  · simp [h]

/-- A released id goes on top of the free ones. -/
theorem freeStack_released (order pos_of : ℕ → ℕ) :
    (t.released order pos_of id).freeStack = t.freeStack ++ [id] := listed_push _ _ _

/-- What a release keeps, whichever way the others move. -/
theorem inv_released {order pos_of : ℕ → ℕ} (h : Inv s) (hid : s.1.isLive id = true)
    (hinverse : Inverse order pos_of (s.1.size - 1))
    (hmem : ∀ other, other ∈ listed order (s.1.size - 1) ↔ other ∈ s.1.iteration ∧ other ≠ id) :
    Inv (s.1.released order pos_of id, s.2) := by
  obtain ⟨hbelow, -⟩ := isLive_iff.mp hid
  have hpos : 0 < s.1.size := by
    have hin := (h.live id).mpr hid
    obtain ⟨p, hp, -⟩ := mem_listed.mp hin
    exact Nat.zero_lt_of_lt hp
  -- a live id is on no stack, so it is released once
  have hnot : id ∉ s.1.freeStack := by
    intro hin
    rw [((h.released id).mp hin).2] at hid
    cases hid
  refine
    { inverse := hinverse
      live := fun other => ?_
      free_nodup := ?_
      released := fun other => ?_
      count := ?_
      high_water := h.high_water
      capacity := h.capacity
      handed_out := h.handed_out }
  · rw [isLive_released, ← h.live other]
    exact (hmem other).trans and_comm
  · rw [freeStack_released]
    exact List.nodup_append.mpr ⟨h.free_nodup, List.nodup_singleton id, by
      rintro x hx y hy rfl
      rw [List.mem_singleton.mp hy] at hx
      exact hnot hx⟩
  · rw [freeStack_released, ← Bool.not_eq_true, isLive_released, List.mem_append,
      List.mem_singleton, h.released, ← Bool.not_eq_true]
    show _ ↔ other < s.1.high_water ∧ _
    by_cases heq : other = id
    · simp [heq, hbelow]
    · simp [heq]
  · show s.1.size - 1 + (s.1.free_count + 1) = s.1.high_water
    have hcount := h.count
    omega

/-- The table's size fits its type. -/
theorem size_lt (h : Inv s) : s.1.size < 2 ^ 32 := by
  have hcount := h.count
  have hhigh := h.high_water
  omega

theorem uint32_of_lt {n : ℕ} (h : n < 2 ^ 32) : uint32 n = n := Nat.mod_eq_of_lt h

/-- A live block: its position, and the last one. -/
theorem exists_position (h : Inv s) (hid : s.1.isLive id = true) : ∃ n, s.1.size = n + 1 ∧
    s.1.pos_of id ≤ n ∧ s.1.order (s.1.pos_of id) = id
      ∧ uint32 (s.1.pos_of id) = s.1.pos_of id := by
  obtain ⟨hlt, horder⟩ := h.inverse.pos_of_mem ((h.live id).mpr hid)
  obtain ⟨n, hn⟩ := Nat.exists_eq_succ_of_ne_zero (Nat.ne_zero_of_lt hlt)
  rw [hn] at hlt
  refine ⟨n, hn, Nat.lt_succ_iff.mp hlt, horder, uint32_of_lt ?_⟩
  have hsize := size_lt h
  omega

/-- What `swapRemove` writes: the last id takes the place of the removed one. -/
theorem swapRemove_eq (h : Inv s) (hid : s.1.isLive id = true) {n : ℕ} (hn : s.1.size = n + 1) :
    s.1.swapRemove id = s.1.released (update s.1.order (s.1.pos_of id) (s.1.order n))
      (update s.1.pos_of (s.1.order n) (s.1.pos_of id)) id := by
  obtain ⟨n', hn', -, -, hcast⟩ := exists_position h hid
  obtain rfl : n' = n := Nat.succ.inj (hn'.symm.trans hn)
  have hlast : s.1.size - 1 = n' := by rw [hn, Nat.add_sub_cancel]
  rw [swapRemove, hlast, hcast]
  split
  · rfl
  -- the last block is the released one, and nothing moves
  · next heq =>
    rw [not_not] at heq
    have hpos := h.inverse n' (hn ▸ Nat.lt_succ_self n')
    rw [heq, update_eq_self]
    nth_rewrite 2 [← hpos]
    rw [update_eq_self]
    rfl

/-- What the loop of `eraseOrdered` writes. -/
theorem shiftFrom_spec (t : BlockTable) (i n : ℕ)
    (hinj : ∀ q r, i ≤ q → q < i + n → i ≤ r → r < i + n → t.order (q + 1) = t.order (r + 1) →
      q = r) : ∃ order pos_of, t.shiftFrom i n = { t with order := order, pos_of := pos_of } ∧
      (∀ q, q < i ∨ i + n ≤ q → order q = t.order q) ∧
      (∀ q, i ≤ q → q < i + n → order q = t.order (q + 1)) ∧
      (∀ q, i ≤ q → q < i + n → pos_of (t.order (q + 1)) = uint32 q) ∧
      ∀ id, (∀ q, i ≤ q → q < i + n → t.order (q + 1) ≠ id) → pos_of id = t.pos_of id := by
  -- by the positions left; those before `i` are written already
  induction n generalizing t i with
  | zero =>
    refine ⟨t.order, t.pos_of, rfl, fun _ _ => rfl, ?_, ?_, fun _ _ => rfl⟩
    · intro q hq hlt
      omega
    · intro q hq hlt
      omega
  | succ n ih =>
    have horder : ∀ q, i + 1 ≤ q → update t.order i (t.order (i + 1)) (q + 1) = t.order (q + 1) :=
      fun q hq => update_of_ne (by omega) _ _
    obtain ⟨order, pos_of, hshift, hout, hin, hpos, hother⟩ := ih
      { t with
        order := update t.order i (t.order (i + 1))
        pos_of := update t.pos_of (t.order (i + 1)) (uint32 i) } (i + 1) (by
        intro q r hq hqn hr hrn heq
        dsimp only at heq
        rw [horder q hq, horder r hr] at heq
        exact hinj q r (by omega) (by omega) (by omega) (by omega) heq)
    dsimp only at hout hin hpos hother
    refine ⟨order, pos_of, hshift, ?_, ?_, ?_, ?_⟩
    · intro q hq
      rw [hout q (by omega), update_of_ne (by omega)]
    · intro q hq hlt
      rcases hq.eq_or_lt with rfl | hq
      · rw [hout i (by omega), update_self]
      · rw [hin q hq (by omega), horder q hq]
    · intro q hq hlt
      rcases hq.eq_or_lt with rfl | hq
      -- no later turn writes this id again, as the ids are different
      · rw [hother _ fun r hr hrn => ?_, update_self]
        rw [horder r hr]
        intro heq
        have hsame := hinj r i (by omega) (by omega) le_rfl (by omega) heq
        omega
      · have hq' := hpos q hq (by omega)
        rwa [horder q hq] at hq'
    · intro id hid
      rw [hother id fun q hq hlt => ?_, update_of_ne]
      · exact fun heq => hid i le_rfl (by omega) heq.symm
      · rw [horder q hq]
        exact hid q (by omega) (by omega)

/-- The blocks after a released one move down. -/
theorem eraseOrdered_eq (h : Inv s) (hid : s.1.isLive id = true) {n : ℕ}
    (hn : s.1.size = n + 1) : ∃ order pos_of,
      s.1.eraseOrdered id = s.1.released order pos_of id ∧ Inverse order pos_of n ∧
      listed order n = (listed s.1.order (n + 1)).erase id := by
  obtain ⟨n', hn', hle, horder, -⟩ := exists_position h hid
  obtain rfl : n' = n := Nat.succ.inj (hn'.symm.trans hn)
  have hinverse := h.inverse
  rw [hn] at hinverse
  have hlast : s.1.size - 1 - s.1.pos_of id = n' - s.1.pos_of id := by
    rw [hn, Nat.add_sub_cancel]
  obtain ⟨order, pos_of, hshift, hout, hin, hpos, hother⟩ :=
    shiftFrom_spec s.1 (s.1.pos_of id) (n' - s.1.pos_of id) (by
      intro q r hq hqn hr hrn heq
      have hsame := hinverse (q + 1) (by omega)
      rw [heq, hinverse (r + 1) (by omega)] at hsame
      omega)
  have hlow : ∀ q < s.1.pos_of id, order q = s.1.order q := fun q hq => hout q (Or.inl hq)
  have hhigh : ∀ q, s.1.pos_of id ≤ q → q < n' → order q = s.1.order (q + 1) :=
    fun q hq hlt => hin q hq (by omega)
  refine ⟨order, pos_of, ?_, ?_, ?_⟩
  · rw [eraseOrdered, hlast, hshift]
    rfl
  · refine hinverse.shift hlow hhigh (fun q hq hqn => ?_) fun q hq hlt => ?_
    · refine hother _ fun r hr hrn heq => ?_
      have hsame := hinverse (r + 1) (by omega)
      rw [heq, hinverse q (by omega)] at hsame
      omega
    · rw [hpos q hq (by omega), uint32_of_lt]
      have hsize := size_lt h
      omega
  · have herase := listed_shift_erase hinverse hle hlow hhigh
    rwa [horder] at herase

/-! ## Adding a block -/

/-- A table with `c` released ids and the high water mark `w`, to which block `id` is added. -/
def stored (t : BlockTable) (c w : ℕ) (bi : BlockInfo) (m : BufferMetadata) (id : ℕ) :
    BlockTable :=
  { t with
    info := update t.info id bi
    «meta» := update t.meta id m
    lmark := update t.lmark id 0
    live := update t.live id 1
    gen := update t.gen id (uint32 (t.gen id + 1))
    pos_of := update t.pos_of id (uint32 t.size)
    order := update t.order t.size id
    size := t.size + 1
    free_count := c
    high_water := w }

/-- The most recently released id is taken, or else the next one that was never used. -/
theorem add_cases {bi : BlockInfo} {m : BufferMetadata} {r : ℕ × BlockTable}
    (h : t.add bi m = some r) : r.1 = t.nextId ∧
      ((∃ c, t.free_count = c + 1 ∧ r.2 = t.stored c t.high_water bi m t.nextId) ∨
        (t.free_count = 0 ∧ t.high_water < t.capacity ∧
          r.2 = t.stored 0 (uint32 (t.high_water + 1)) bi m t.nextId)) := by
  rw [add, Option.bind_eq_bind, Option.bind_eq_some_iff] at h
  obtain ⟨⟨id, t₁⟩, htake, h⟩ := h
  rw [Option.bind_eq_bind, Option.bind_eq_some_iff] at h
  obtain ⟨-, -, h⟩ := h
  obtain rfl := Option.some.inj h
  rw [takeId] at htake
  rw [nextId]
  split at htake
  · next hpos =>
    obtain ⟨rfl, rfl⟩ := Prod.mk.inj (Option.some.inj htake)
    rw [if_pos hpos]
    exact ⟨rfl, Or.inl ⟨t.free_count - 1, (Nat.succ_pred_eq_of_pos hpos).symm, rfl⟩⟩
  split at htake
  · cases htake
  · next hpos hfull =>
    rw [Option.bind_eq_bind, Option.bind_eq_some_iff] at htake
    obtain ⟨-, -, htake⟩ := htake
    obtain ⟨rfl, rfl⟩ := Prod.mk.inj (Option.some.inj htake)
    have hzero := Nat.eq_zero_of_not_pos hpos
    rw [if_neg hpos]
    refine ⟨rfl, Or.inr ⟨hzero, Nat.lt_of_not_le hfull, ?_⟩⟩
    rw [stored, ← hzero]

/-- Handing out an id adds one incarnation of it. -/
theorem incarnations_concat (handedOut : List (ℕ × ℕ)) (id g other : ℕ) :
    incarnations (handedOut ++ [(id, g)]) other
      = incarnations handedOut other ++ if other = id then [g] else [] := by
  rw [incarnations, List.filter_append, List.map_append, incarnations]
  congr 1
  by_cases h : other = id
  · simp [h]
  · have hne : id ≠ other := fun heq => h heq.symm
    simp [h, hne]

theorem generations_succ (k : ℕ) : generations (k + 1) = generations k ++ [uint32 (k + 1)] := by
  simp [generations, List.range_succ]

theorem length_generations (k : ℕ) : (generations k).length = k := by
  simp [generations]

/-- What an added block keeps. -/
theorem inv_stored {c w : ℕ} {bi : BlockInfo} {m : BufferMetadata} (h : Inv s)
    (hid : s.1.isLive id = false) (hlt : id < w) (hle : s.1.high_water ≤ w)
    (hlow : ∀ other < w, other = id ∨ other < s.1.high_water)
    (hnodup : (listed s.1.free c).Nodup)
    (hreleased : ∀ other, other ∈ listed s.1.free c ↔ other ∈ s.1.freeStack ∧ other ≠ id)
    (hcount : s.1.size + 1 + c = w) (hw : w < 2 ^ 32) (hcap : w ≤ s.1.capacity)
    (hfit : (incarnations s.2 id).length < 2 ^ 32) :
    Inv (s.1.stored c w bi m id, s.2 ++ [(id, uint32 (s.1.gen id + 1))]) := by
  have hnot : id ∉ listed s.1.order s.1.size := by
    intro hin
    rw [(h.live id).mp hin] at hid
    cases hid
  -- only the added id becomes live
  have hlive : ∀ other, (s.1.stored c w bi m id).isLive other = true ↔
      other = id ∨ s.1.isLive other = true := by
    intro other
    rw [isLive_iff, isLive_iff]
    show other < w ∧ update s.1.live id 1 other ≠ 0 ↔ _
    by_cases heq : other = id
    · simp [heq, hlt]
    · rw [update_of_ne heq, or_iff_right heq]
      refine and_congr_left fun _ => ⟨fun hother => ?_, fun hother => hother.trans_le hle⟩
      exact (hlow other hother).resolve_left heq
  have hiteration : (s.1.stored c w bi m id).iteration = s.1.iteration ++ [id] :=
    listed_push _ _ _
  refine
    { inverse := ?_
      live := fun other => ?_
      free_nodup := hnodup
      released := fun other => ?_
      count := hcount
      high_water := hw
      capacity := hcap
      handed_out := fun other => ?_ }
  · show Inverse _ (update s.1.pos_of id (uint32 s.1.size)) _
    rw [uint32_of_lt (size_lt h)]
    exact h.inverse.push hnot
  · rw [hiteration, List.mem_append, List.mem_singleton, h.live, hlive, or_comm]
  · show other ∈ listed s.1.free c ↔ other < w ∧ _
    rw [hreleased, h.released, ← Bool.not_eq_true, ← Bool.not_eq_true, hlive, not_or]
    constructor
    · rintro ⟨⟨hother, hdead⟩, hne⟩
      exact ⟨hother.trans_le hle, hne, hdead⟩
    · rintro ⟨hother, hne, hdead⟩
      exact ⟨⟨(hlow other hother).resolve_left hne, hdead⟩, hne⟩
  -- the id has one incarnation more; `hfit` keeps its generation from wrapping
  · obtain ⟨k, hk, hhad, hgen⟩ := h.handed_out other
    rw [incarnations_concat, hhad]
    by_cases heq : other = id
    · subst heq
      rw [hhad, length_generations] at hfit
      refine ⟨k + 1, hfit, ?_, ?_⟩
      · rw [if_pos rfl, generations_succ, hgen, uint32, uint32, uint32, Nat.mod_add_mod]
      · show update s.1.gen other _ other = _
        rw [update_self, hgen, uint32, uint32, uint32, Nat.mod_add_mod]
    · refine ⟨k, hk, ?_, ?_⟩
      · rw [if_neg heq, List.append_nil]
      · show update s.1.gen id _ other = _
        rw [update_of_ne heq, hgen]

/-- Adding keeps the invariant while generations fit. -/
theorem inv_add {bi : BlockInfo} {m : BufferMetadata} {r : ℕ × BlockTable} (h : Inv s)
    (hadd : s.1.add bi m = some r) (hfit : Fit s (.add bi m)) :
    Inv (r.2, s.2 ++ [(r.1, r.2.generation r.1)]) := by
  obtain ⟨hid, hcases⟩ := add_cases hadd
  obtain ⟨hfresh, hfit⟩ := hfit
  have hcount := h.count
  -- the last id released is taken, or the first one never handed out
  rcases hcases with ⟨c, hfree, ht⟩ | ⟨hfree, hroom, ht⟩
  · have hnext : s.1.nextId = s.1.free c := by
      rw [nextId, hfree, if_pos (Nat.succ_pos c), Nat.add_sub_cancel]
    have hstack : s.1.freeStack = listed s.1.free c ++ [s.1.nextId] := by
      rw [freeStack, hfree, listed_succ, hnext]
    have hnodup := h.free_nodup
    rw [hstack] at hnodup
    obtain ⟨hbelow, hdead⟩ := (h.released s.1.nextId).mp (by rw [hstack]; simp)
    have hgeneration : r.2.generation r.1 = uint32 (s.1.gen s.1.nextId + 1) := by
      rw [ht, hid]
      exact update_self _ _ _
    rw [hgeneration, hid, ht]
    refine inv_stored h hdead hbelow le_rfl (fun _ hother => Or.inr hother)
      hnodup.of_append_left (fun other => ?_) ?_ h.high_water h.capacity hfit
    · rw [hstack, List.mem_append, List.mem_singleton]
      constructor
      · intro hin
        refine ⟨Or.inl hin, ?_⟩
        rintro rfl
        exact (List.nodup_append.mp hnodup).2.2 _ hin _ (List.mem_singleton_self _) rfl
      · rintro ⟨hin, hne⟩
        exact hin.resolve_right hne
    · omega
  · have hnext : s.1.nextId = s.1.high_water := by
      rw [nextId, hfree]
      rfl
    have hmark := uint32_of_lt (hfresh hfree)
    have hdead : s.1.isLive s.1.nextId = false := by
      rw [← Bool.not_eq_true, isLive_iff, hnext]
      exact fun hh => lt_irrefl _ hh.1
    have hgeneration : r.2.generation r.1 = uint32 (s.1.gen s.1.nextId + 1) := by
      rw [ht, hid]
      exact update_self _ _ _
    rw [hgeneration, hid, ht, hmark]
    refine inv_stored h hdead (by omega) (Nat.le_succ _) (fun other hother => ?_) List.nodup_nil
      (fun other => ?_) (by omega) (hfresh hfree) hroom hfit
    · rw [hnext]
      omega
    · rw [freeStack, hfree]
      simp [listed]

/-! ## Steps and runs -/

/-- The invariant holds of the reserved table. -/
theorem inv_reserve (max_blocks : ℕ) : Inv (reserve max_blocks, []) where
  inverse := fun p hp => absurd hp (Nat.not_lt_zero p)
  live := by simp [iteration, listed, isLive, reserve]
  free_nodup := List.nodup_nil
  released := by simp [freeStack, listed, isLive, reserve]
  count := rfl
  high_water := Nat.two_pow_pos 32
  capacity := Nat.zero_le _
  handed_out := fun id => ⟨0, Nat.zero_le _, rfl, rfl⟩

/-- Clearing keeps the invariant. -/
theorem inv_clear (h : Inv s) : Inv (s.1.clear, s.2) where
  inverse := fun p hp => absurd hp (Nat.not_lt_zero p)
  live := by simp [iteration, listed, isLive, clear]
  free_nodup := List.nodup_nil
  released := by simp [freeStack, listed, isLive, clear]
  count := rfl
  high_water := Nat.two_pow_pos 32
  capacity := Nat.zero_le _
  handed_out := h.handed_out

/-- Removing by a swap keeps the invariant. -/
theorem inv_swapRemove (h : Inv s) (hid : s.1.isLive id = true) :
    Inv (s.1.swapRemove id, s.2) := by
  obtain ⟨n, hn, hle, horder, -⟩ := exists_position h hid
  have hinverse := h.inverse
  rw [hn] at hinverse
  rw [swapRemove_eq h hid hn]
  refine inv_released h hid ?_ fun other => ?_
  · rw [hn, Nat.add_sub_cancel]
    exact hinverse.swap _
  · rw [hn, Nat.add_sub_cancel, mem_swap hinverse hle, horder, iteration, hn]

/-- Removing in order keeps the invariant. -/
theorem inv_eraseOrdered (h : Inv s) (hid : s.1.isLive id = true) :
    Inv (s.1.eraseOrdered id, s.2) := by
  obtain ⟨n, hn, -, -, -⟩ := exists_position h hid
  obtain ⟨order, pos_of, heq, hinverse, hlisted⟩ := eraseOrdered_eq h hid hn
  rw [heq]
  refine inv_released h hid ?_ fun other => ?_
  · rwa [hn, Nat.add_sub_cancel]
  · have hnodup := h.inverse.nodup
    rw [hn] at hnodup
    rw [hn, Nat.add_sub_cancel, hlisted, hnodup.mem_erase_iff, iteration, hn]
    exact and_comm

/-- A step that finds an id keeps the invariant. -/
theorem inv_step {op : Op} (h : Inv s) (hstep : step s op = some s') (hfit : Fit s op) :
    Inv s' := by
  cases op with
  | add bi m =>
    rw [step, Option.map_eq_some_iff] at hstep
    obtain ⟨r, hadd, rfl⟩ := hstep
    exact inv_add h hadd hfit
  | swapRemove id =>
    rw [step] at hstep
    split at hstep
    · next hid =>
      obtain rfl := Option.some.inj hstep
      exact inv_swapRemove h hid
    · cases hstep
  | eraseOrdered id =>
    rw [step] at hstep
    split at hstep
    · next hid =>
      obtain rfl := Option.some.inj hstep
      exact inv_eraseOrdered h hid
    · cases hstep
  | clear =>
    obtain rfl := Option.some.inj hstep
    exact inv_clear h

/-! ## Soundness -/

/-- The invariant makes the table sound. -/
theorem Inv.sound (h : Inv s) : Sound s.1 where
  nodup := h.inverse.nodup
  live := h.live
  position := fun id p => by
    rw [← h.live]
    exact h.inverse.getElem?_iff
  free_nodup := h.free_nodup
  released := h.released
  below := fun id => by
    rw [h.live, h.released]
    cases hid : s.1.isLive id with
    | true => exact ⟨fun _ => Or.inl rfl, fun _ => (isLive_iff.mp hid).1⟩
    | false => simp
  swapRemove := fun id hid last hlast => by
    obtain ⟨n, hn, hle, -, -⟩ := exists_position h hid
    rw [iteration, hn, listed_succ, List.getLast?_concat] at hlast
    obtain rfl := Option.some.inj hlast
    rw [swapRemove_eq h hid hn, iteration, iteration, hn]
    show listed _ (s.1.size - 1) = _
    rw [hn, Nat.add_sub_cancel]
    exact listed_swap hle
  eraseOrdered := fun id hid => by
    obtain ⟨n, hn, -, -, -⟩ := exists_position h hid
    obtain ⟨order, pos_of, heq, -, hlisted⟩ := eraseOrdered_eq h hid hn
    rw [heq, iteration, iteration, hn]
    show listed _ (s.1.size - 1) = _
    rw [hn, Nat.add_sub_cancel]
    exact hlisted

/-- Up to 2^32 generations are all different. -/
theorem nodup_generations {k : ℕ} (hk : k ≤ 2 ^ 32) : (generations k).Nodup := by
  refine List.Nodup.map_on (fun i hi j hj heq => ?_) List.nodup_range
  have hi' := List.mem_range.mp hi
  have hj' := List.mem_range.mp hj
  rw [uint32, uint32] at heq
  omega

/-- Ids whose generations are distinct one id at a time were never handed out twice the same. -/
theorem nodup_of_incarnations {handedOut : List (ℕ × ℕ)}
    (h : ∀ id, (incarnations handedOut id).Nodup) : handedOut.Nodup := by
  rw [List.nodup_iff_count_le_one]
  rintro ⟨id, g⟩
  have hcount := List.nodup_iff_count_le_one.mp (h id) g
  refine le_trans ?_ hcount
  have hfilter : (handedOut.filter (·.1 = id)).count (id, g) = handedOut.count (id, g) :=
    List.count_filter (by simp)
  rw [← hfilter]
  exact List.count_le_count_map (f := Prod.snd)

/-- The invariant gives what is promised. -/
theorem Inv.holds (h : Inv s) : Holds s := by
  refine ⟨h.sound, nodup_of_incarnations fun id => ?_⟩
  obtain ⟨k, hk, hhad, -⟩ := h.handed_out id
  rw [hhad]
  exact nodup_generations hk

/-- A step that finds no id breaks the table. -/
theorem not_holds_step {op : Op} (h : Inv s) (hstep : step s op = some s') (hfit : ¬ Fit s op) :
    ¬ Holds s' := by
  rintro ⟨hsound, hnodup⟩
  cases op with
  | add bi m =>
    rw [step, Option.map_eq_some_iff] at hstep
    obtain ⟨⟨id, t⟩, hadd, rfl⟩ := hstep
    obtain ⟨hid, hcases⟩ := add_cases hadd
    dsimp only at hsound hnodup hid hcases
    rw [Fit, Classical.not_and_iff_not_or_not] at hfit
    rcases hfit with hfresh | hmany
    -- the high water mark goes back to 0, and no id is below it
    · push Not at hfresh
      obtain ⟨hfree, hmark⟩ := hfresh
      have hhigh := h.high_water
      have hwrap : uint32 (s.1.high_water + 1) = 0 := by
        rw [uint32]
        omega
      rcases hcases with ⟨c, hc, -⟩ | ⟨-, -, ht⟩
      · rw [hfree] at hc
        cases hc
      · have hin : s.1.nextId ∈ t.iteration := by
          rw [ht]
          exact mem_listed.mpr ⟨s.1.size, Nat.lt_succ_self _, update_self _ _ _⟩
        have hlive := (isLive_iff.mp ((hsound.live _).mp hin)).1
        rw [ht] at hlive
        exact absurd hlive (by rw [stored, hwrap]; exact Nat.not_lt_zero _)
    -- the generation goes back to that of the first incarnation
    · obtain ⟨k, hk, hhad, hgen⟩ := h.handed_out s.1.nextId
      rw [hhad, length_generations] at hmany
      obtain rfl : k = 2 ^ 32 := by omega
      have hgeneration : t.generation id = 1 := by
        have hnew : t.gen s.1.nextId = uint32 (s.1.gen s.1.nextId + 1) := by
          rcases hcases with ⟨c, -, ht⟩ | ⟨-, -, ht⟩ <;> rw [ht] <;> exact update_self _ _ _
        rw [generation, hid, hnew, hgen]
        decide
      rw [hgeneration, hid] at hnodup
      have hfirst : (1 : ℕ) ∈ incarnations s.2 s.1.nextId := by
        rw [hhad]
        exact List.mem_map.mpr ⟨0, List.mem_range.mpr (Nat.two_pow_pos 32), by decide⟩
      obtain ⟨⟨i, g⟩, hmem, rfl⟩ := List.mem_map.mp hfirst
      obtain ⟨hmem, hsame⟩ := List.mem_filter.mp hmem
      obtain rfl : i = s.1.nextId := by simpa using hsame
      exact (List.nodup_append.mp hnodup).2.2 _ hmem _ (List.mem_singleton_self _) rfl
  | swapRemove id => exact hfit trivial
  | eraseOrdered id => exact hfit trivial
  | clear => exact hfit trivial

/-- What is promised holds all along exactly when every step fits. -/
theorem throughout_iff (h : Inv s) (ops : List Op) : Throughout Holds s ops ↔ Fits s ops := by
  induction ops generalizing s with
  | nil => exact ⟨fun _ => trivial, fun _ => h.holds⟩
  | cons op ops ih =>
    constructor
    · rintro ⟨-, hrest⟩ s' hs'
      have hfit : Fit s op := by
        by_contra hnot
        refine not_holds_step h hs' hnot ?_
        cases ops with
        | nil => exact hrest s' hs'
        | cons op ops => exact (hrest s' hs').1
      exact ⟨hfit, (ih (inv_step h hs' hfit)).mp (hrest s' hs')⟩
    · intro hfits
      refine ⟨h.holds, fun s' hs' => ?_⟩
      obtain ⟨hfit, hrest⟩ := hfits s' hs'
      exact (ih (inv_step h hs' hfit)).mpr hrest

/-- The tables of a run are sound, and no id has one generation twice, exactly where each block
    finds an id. -/
theorem table_sound_iff (max_blocks : ℕ) (ops : List Op) :
    Throughout Holds (reserve max_blocks, []) ops ↔ Fits (reserve max_blocks, []) ops :=
  throughout_iff (inv_reserve max_blocks) ops

/-- A new block is refused exactly when every id is in use. -/
theorem add_eq_none_iff (h : Inv s) (bi : BlockInfo) (m : BufferMetadata) :
    s.1.add bi m = none ↔ s.1.size = s.1.capacity := by
  have hcount := h.count
  have hcap := h.capacity
  have hroom : ∀ n ≤ s.1.capacity, s.1.ensureCommitted n = some () :=
    fun n hn => if_neg (Nat.not_lt_of_le hn)
  by_cases hfree : 0 < s.1.free_count
  · have hsize := hroom (s.1.size + 1) (by omega)
    rw [ensureCommitted] at hsize
    rw [add, takeId, if_pos hfree]
    simp only [ensureCommitted, Option.bind_eq_bind, Option.bind_some, hsize]
    simp only [Option.pure_def, reduceCtorEq, false_iff]
    omega
  by_cases hfull : s.1.capacity ≤ s.1.high_water
  · rw [add, takeId, if_neg hfree, if_pos hfull]
    simp only [Option.bind_eq_bind, Option.bind_none, true_iff]
    omega
  · have hsize := hroom (s.1.size + 1) (by omega)
    have hmark := hroom (uint32 (s.1.high_water + 1))
      ((Nat.mod_le _ _).trans (Nat.succ_le_of_lt (Nat.lt_of_not_le hfull)))
    rw [ensureCommitted] at hsize
    rw [add, takeId, if_neg hfree, if_neg hfull]
    dsimp only
    rw [hmark]
    simp only [ensureCommitted, Option.bind_eq_bind, Option.bind_some, hsize, Option.pure_def,
      reduceCtorEq, false_iff]
    omega

/-- One block, added and released `n` times, and added once more. -/
def rounds (bi : BlockInfo) (m : BufferMetadata) : ℕ → List Op
  | 0 => [.add bi m]
  | n + 1 => .add bi m :: .swapRemove 0 :: rounds bi m n

theorem size_swapRemove (t : BlockTable) (id : ℕ) : (t.swapRemove id).size = t.size - 1 := by
  rw [swapRemove]
  split <;> rfl

theorem capacity_swapRemove (t : BlockTable) (id : ℕ) :
    (t.swapRemove id).capacity = t.capacity := by
  rw [swapRemove]
  split <;> rfl

/-- In an empty table for one block that block gets id 0. -/
theorem nextId_of_empty (h : Inv s) (hcap : s.1.capacity = 1) (hsize : s.1.size = 0) :
    s.1.nextId = 0 := by
  have hcount := h.count
  have hle := h.capacity
  rw [nextId]
  split
  · next hfree =>
    have hin : s.1.free (s.1.free_count - 1) ∈ s.1.freeStack :=
      mem_listed.mpr ⟨_, Nat.pred_lt (Nat.ne_of_gt hfree), rfl⟩
    have hlt := ((h.released _).mp hin).1
    omega
  · omega

theorem add_of_empty (h : Inv s) (hcap : s.1.capacity = 1) (hsize : s.1.size = 0)
    (bi : BlockInfo) (m : BufferMetadata) : ∃ t, s.1.add bi m = some (0, t) ∧ t.size = 1 ∧
      t.capacity = 1 ∧ 0 ∈ t.iteration := by
  have hnext := nextId_of_empty h hcap hsize
  have hroom : s.1.add bi m ≠ none := mt (add_eq_none_iff h bi m).mp (by omega)
  obtain ⟨⟨id, t⟩, hadd⟩ := Option.ne_none_iff_exists'.mp hroom
  obtain ⟨hid, hcases⟩ := add_cases hadd
  rw [hnext] at hid hcases
  obtain rfl : id = 0 := hid
  have hstored : ∀ c w, 0 ∈ (s.1.stored c w bi m 0).iteration := fun c w =>
    mem_listed.mpr ⟨s.1.size, Nat.lt_succ_self _, update_self _ _ _⟩
  rcases hcases with ⟨c, -, ht⟩ | ⟨-, -, ht⟩
  · obtain rfl : t = _ := ht
    exact ⟨_, hadd, congrArg (· + 1) hsize, hcap, hstored _ _⟩
  · obtain rfl : t = _ := ht
    exact ⟨_, hadd, congrArg (· + 1) hsize, hcap, hstored _ _⟩

/-- In a table for one block each round is an incarnation of id 0. -/
theorem length_of_fits_rounds {bi : BlockInfo} {m : BufferMetadata} {n : ℕ} (h : Inv s)
    (hcap : s.1.capacity = 1) (hsize : s.1.size = 0) (hfits : Fits s (rounds bi m n)) :
    (incarnations s.2 0).length + n < 2 ^ 32 := by
  induction n generalizing s with
  | zero =>
    obtain ⟨t, hadd, -⟩ := add_of_empty h hcap hsize bi m
    obtain ⟨⟨-, hfew⟩, -⟩ := hfits _ (by rw [step, hadd]; rfl)
    rwa [nextId_of_empty h hcap hsize] at hfew
  | succ n ih =>
    obtain ⟨t, hadd, hone, hcap', hin⟩ := add_of_empty h hcap hsize bi m
    have hstep : step s (.add bi m) = some (t, s.2 ++ [(0, t.generation 0)]) := by
      rw [step, hadd]
      rfl
    obtain ⟨hfit, hrest⟩ := hfits _ hstep
    have hinv := inv_step h hstep hfit
    have hlive := (hinv.live 0).mp hin
    obtain ⟨-, hrest⟩ := hrest (t.swapRemove 0, s.2 ++ [(0, t.generation 0)]) (if_pos hlive)
    have hlen := ih (inv_swapRemove hinv hlive) ((capacity_swapRemove t 0).trans hcap')
      ((size_swapRemove t 0).trans (by rw [hone])) hrest
    rw [incarnations_concat, if_pos rfl, List.length_append, List.length_singleton] at hlen
    omega

/-- After `2 ^ 32` rounds id 0 has its first generation again. -/
theorem generation_repeats : ¬ Throughout Holds (reserve 1, [])
    (rounds zeroInfo ⟨0, 0, false⟩ (2 ^ 32)) := by
  rw [throughout_iff (inv_reserve 1)]
  intro hfits
  have hlen := length_of_fits_rounds (inv_reserve 1) rfl rfl hfits
  exact absurd hlen (Nat.not_lt.mpr (Nat.le_add_left _ _))

end BlockTable

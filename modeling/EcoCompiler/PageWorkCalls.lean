import EcoCompiler.PageWorkJobs

/-! # What the calls keep

    * `ageLoop_spec` — a sync point picks distinct extents that are Pending, and stops with
      every other one in the order and the cap met;
    * `onRelease_spec`, `onReuse_spec`, `syncPoint_spec`, `drainAll_spec` — the calls keep the
      invariant. -/

namespace PageWork

open Tiling FreeLedger

/-- What most calls leave alone. -/
structure Keeps (w w' : State) : Prop where
  pending : w'.pending = w.pending
  order : w'.pending_order = w.pending_order
  bytes : w'.pending_bytes = w.pending_bytes
  cfg : w'.cfg = w.cfg
  window : w'.window_end = w.window_end
  commits : commits w'.history = commits w.history

theorem Frame.keeps {w w' : State} (h : Frame w w') : Keeps w w' :=
  ⟨h.pending, h.order, h.bytes, h.cfg, h.window, h.commits⟩

theorem Keeps.trans {w w' w'' : State} (h : Keeps w w') (h' : Keeps w' w'') : Keeps w w'' :=
  ⟨h'.pending.trans h.pending, h'.order.trans h.order, h'.bytes.trans h.bytes,
    h'.cfg.trans h.cfg, h'.window.trans h.window, h'.commits.trans h.commits⟩

/-- Every Pending extent is in the order. -/
def Ordered (w : State) : Prop := ∀ q ∈ w.pending, ⟨q.1, q.2.seq⟩ ∈ w.pending_order

section

variable {w : State}

/-! ## Pending extents -/

theorem mem_of_findPending {p : ℕ} {it : Pending} (h : w.findPending p = some it) :
    (p, it) ∈ w.pending := by
  obtain ⟨l₁, l₂, heq, -⟩ := List.lookup_eq_some_iff.mp h
  rw [heq]
  simp

theorem findPending_ne_none {q : ℕ × Pending} (h : q ∈ w.pending) : w.findPending q.1 ≠ none := by
  intro hnone
  have hall := List.lookup_eq_none_iff.mp hnone q h
  simp at hall

/-- With distinct addresses, an extent is the one that is found. -/
theorem eq_of_findPending (keys : (w.pending.map Prod.fst).Nodup) {q : ℕ × Pending}
    {it : Pending} (h : w.findPending q.1 = some it) (hq : q ∈ w.pending) : q.2 = it := by
  have hmem := mem_of_findPending h
  have heq := List.inj_on_of_nodup_map keys hq hmem rfl
  rw [heq]

/-- The bytes that stay when an address is taken out. -/
theorem sum_erase {l : List (ℕ × Pending)} (keys : (l.map Prod.fst).Nodup) {p : ℕ} {it : Pending}
    (h : (p, it) ∈ l) :
    ((l.filter fun q => q.1 ≠ p).map fun q => q.2.size).sum = (l.map fun q => q.2.size).sum
      - it.size := by
  induction l with
  | nil => exact absurd h List.not_mem_nil
  | cons q l ih =>
    obtain ⟨hnot, keys⟩ := List.nodup_cons.mp keys
    rw [List.map_cons, List.sum_cons]
    rcases List.mem_cons.mp h with rfl | h
    · have hall : l.filter (fun q => q.1 ≠ p) = l := by
        refine List.filter_eq_self.mpr fun q hq => decide_eq_true fun heq => hnot ?_
        exact List.mem_map.mpr ⟨q, hq, heq⟩
      have hself : ((p, it) :: l).filter (fun q => q.1 ≠ p) = l.filter fun q => q.1 ≠ p :=
        List.filter_cons_of_neg (by simp)
      rw [hself, hall, Nat.add_sub_cancel_left]
    · have hne : q.1 ≠ p := fun heq => hnot (List.mem_map.mpr ⟨(p, it), h, heq.symm⟩)
      have hle := List.le_sum_of_mem (List.mem_map_of_mem (f := fun q => q.2.size) h)
      have hfirst : (q :: l).filter (fun q => q.1 ≠ p) = q :: l.filter fun q => q.1 ≠ p :=
        List.filter_cons_of_pos (decide_eq_true hne)
      rw [hfirst, List.map_cons, List.sum_cons, ih keys h]
      dsimp only at hle
      omega

theorem mem_erasePending {p n : ℕ} {q : ℕ × Pending} :
    q ∈ (w.erasePending p n).pending ↔ q ∈ w.pending ∧ q.1 ≠ p := by
  rw [State.erasePending, List.mem_filter]
  simp

/-- A Pending extent is taken out. -/
theorem Inv.erase (h : Inv w) {p : ℕ} {it : Pending} (hmem : (p, it) ∈ w.pending) :
    Inv (w.erasePending p it.size) where
  legal := h.legal
  sound := h.sound
  keys := h.keys.sublist (List.filter_sublist.map _)
  pending_free q hq := h.pending_free q (mem_erasePending.mp hq).1
  untouched q hq := h.untouched q (mem_erasePending.mp hq).1
  bytes := by
    rw [State.erasePending, sum_erase h.keys hmem]
    exact congrArg (fun k => k - it.size) h.bytes
  jobs := h.jobs
  posted p q hq := by
    obtain ⟨hext, hfree, hother⟩ := h.posted p q hq
    exact ⟨hext, hfree, fun x hx => hother x (mem_erasePending.mp hx).1⟩

/-- A Pending extent is not Posted. -/
theorem Inv.posted_none (h : Inv w) {q : ℕ × Pending} (hq : q ∈ w.pending) :
    w.posted_discard q.1 = none :=
  Option.eq_none_iff_forall_ne_some.mpr fun x hx => (h.posted q.1 x hx).2.2 q hq rfl

/-! ## Sync points -/

/-- What the loop of a sync point leaves: the extents it has picked, and the rest. -/
structure Picked (w : State) (r : List Range × State) : Prop where
  inv : Inv r.2
  ordered : Ordered r.2
  cap : w.cfg.pending_cap ≠ 0 → r.2.pending_bytes ≤ w.cfg.pending_cap
  batch : ∀ e ∈ r.1, ∃ q ∈ w.pending, e = ⟨q.1, q.2.size⟩
  distinct : (r.1.map Range.start).Nodup
  left : ∀ q ∈ r.2.pending, q ∈ w.pending ∧ ∀ e ∈ r.1, q.1 ≠ e.start
  rest : r.2.history = w.history ∧ r.2.slots = w.slots ∧ r.2.posted_discard = w.posted_discard ∧
    r.2.cfg = w.cfg ∧ r.2.window_end = w.window_end

/-- The order does not matter for the invariant. -/
theorem Inv.reorder (h : Inv w) (order : List OrderEntry) :
    Inv { w with pending_order := order } :=
  ⟨h.legal, h.sound, h.keys, h.pending_free, h.untouched, h.bytes, h.jobs, h.posted⟩

/-- The loop ends with nothing picked. -/
theorem Picked.stop (h : Inv w) {order : List OrderEntry}
    (ordered : ∀ q ∈ w.pending, ⟨q.1, q.2.seq⟩ ∈ order)
    (cap : w.cfg.pending_cap ≠ 0 → w.pending_bytes ≤ w.cfg.pending_cap) :
    Picked w ([], { w with pending_order := order }) where
  inv := h.reorder order
  ordered := ordered
  cap := cap
  batch _ he := absurd he List.not_mem_nil
  distinct := List.nodup_nil
  left _ hq := ⟨hq, fun _ he => absurd he List.not_mem_nil⟩
  rest := ⟨rfl, rfl, rfl, rfl, rfl⟩

/-- A Pending extent is picked before the others. -/
theorem Picked.cons {p : ℕ} {it : Pending} (hmem : (p, it) ∈ w.pending)
    {r : List Range × State} (h : Picked (w.erasePending p it.size) r) :
    Picked w (⟨p, it.size⟩ :: r.1, r.2) where
  inv := h.inv
  ordered := h.ordered
  cap := h.cap
  batch e he := by
    rcases List.mem_cons.mp he with rfl | he
    · exact ⟨(p, it), hmem, rfl⟩
    · obtain ⟨q, hq, heq⟩ := h.batch e he
      exact ⟨q, (mem_erasePending.mp hq).1, heq⟩
  distinct := by
    refine List.nodup_cons.mpr ⟨fun hp => ?_, h.distinct⟩
    obtain ⟨e, he, heq⟩ := List.mem_map.mp hp
    obtain ⟨q, hq, rfl⟩ := h.batch e he
    exact (mem_erasePending.mp hq).2 heq
  left q hq := by
    obtain ⟨hq, hother⟩ := h.left q hq
    obtain ⟨hq, hne⟩ := mem_erasePending.mp hq
    refine ⟨hq, fun e he => ?_⟩
    rcases List.mem_cons.mp he with rfl | he
    · exact hne
    · exact hother e he
  rest := h.rest

/-- The loop goes over stale entries, picks what is due, and stops at the first that is not:
    by then the cap is met. -/
theorem ageLoop_spec (h : Inv w) (order : List OrderEntry)
    (ordered : ∀ q ∈ w.pending, ⟨q.1, q.2.seq⟩ ∈ order) : Picked w (ageLoop order w) := by
  induction order generalizing w with
  | nil =>
    have hnil : w.pending = [] :=
      List.eq_nil_iff_forall_not_mem.mpr fun q hq => List.not_mem_nil (ordered q hq)
    refine Picked.stop h ordered fun _ => ?_
    rw [h.bytes, hnil]
    exact Nat.zero_le _
  | cons oe order ih =>
    -- an entry that does not match is the entry of no Pending extent
    have hstale : (∀ it, w.findPending oe.p = some it → it.seq ≠ oe.seq) →
        ∀ q ∈ w.pending, ⟨q.1, q.2.seq⟩ ∈ order := by
      intro hno q hq
      refine (List.mem_cons.mp (ordered q hq)).resolve_left fun heq => ?_
      subst heq
      obtain ⟨it, hit⟩ := Option.ne_none_iff_exists'.mp (findPending_ne_none hq)
      refine hno it hit ?_
      rw [eq_of_findPending h.keys hit hq]
    rw [ageLoop]
    split
    · next hnone =>
      refine ih h (hstale fun it hit => ?_)
      rw [hnone] at hit
      cases hit
    · next it hsome =>
      split
      · next hseq =>
        refine ih h (hstale fun it' hit => ?_)
        rw [hsome] at hit
        rw [← Option.some.inj hit]
        exact hseq
      · split
        · next hdue =>
          refine Picked.stop h ordered fun hcap => ?_
          have hover := hdue.2
          omega
        · refine Picked.cons (mem_of_findPending hsome) ?_
          refine ih (h.erase (mem_of_findPending hsome)) fun q hq => ?_
          obtain ⟨hq, hne⟩ := mem_erasePending.mp hq
          refine (List.mem_cons.mp (ordered q hq)).resolve_left fun heq => hne ?_
          exact congrArg OrderEntry.p heq

/-- The entries when the extents of a job are added. -/
theorem foldl_emplace (i : Fin kJobSlots) (batch : List Range) (posted : ℕ → Option Posted)
    (distinct : (batch.map Range.start).Nodup) (fresh : ∀ e ∈ batch, posted e.start = none)
    (p : ℕ) (q : Posted) : batch.foldl (emplace i) posted p = some q ↔
      posted p = some q ∨ ∃ e ∈ batch, e.start = p ∧ q = ⟨e.size, i⟩ := by
  induction batch generalizing posted with
  | nil => simp
  | cons e batch ih =>
    obtain ⟨hnot, distinct⟩ := List.nodup_cons.mp distinct
    have hnone := fresh e (List.mem_cons_self ..)
    have hemplace : emplace i posted e
        = Function.update posted e.start (some ⟨e.size, i⟩) := by
      rw [emplace, hnone]
      rfl
    have hrest : ∀ e' ∈ batch, emplace i posted e e'.start = none := by
      intro e' he'
      have hne : e'.start ≠ e.start := fun heq => hnot (List.mem_map.mpr ⟨e', he', heq⟩)
      rw [hemplace, Function.update_of_ne hne]
      exact fresh e' (List.mem_cons_of_mem e he')
    rw [List.foldl_cons, ih _ distinct hrest, hemplace]
    simp only [List.mem_cons, exists_eq_or_imp]
    by_cases hp : e.start = p
    · subst hp
      simp [hnone, eq_comm]
    · simp [hp, Function.update_of_ne (Ne.symm hp)]

/-- An idle slot takes a job. -/
theorem Inv.fill (h : Inv w) {i : Fin kJobSlots} (idle : (w.slots i).state = .idle) {s : PageJob}
    (kind : ∀ e ∈ s.extents, s.kind = .discard) (state : s.state = .posted)
    {posted : ℕ → Option Posted}
    (hposted : ∀ p q, posted p = some q ↔
      w.posted_discard p = some q ∨ ∃ e ∈ s.extents, e.start = p ∧ q = ⟨e.size, i⟩)
    (hfree : ∀ e ∈ s.extents, e ∈ w.free ∧ ∀ q ∈ w.pending, q.1 ≠ e.start) (n : ℕ) :
    Inv { w.setSlot i s with posted_discard := posted, next_seq := n } := by
  have hself : (w.setSlot i s).slots i = s := Function.update_self ..
  have hother : ∀ j, j ≠ i → (w.setSlot i s).slots j = w.slots j := fun j hj =>
    Function.update_of_ne hj ..
  refine ⟨h.legal, h.sound, h.keys, h.pending_free, h.untouched, h.bytes, fun j e he => ?_,
    fun p q hq => ?_⟩
  · by_cases hj : j = i
    · subst hj
      rw [hself] at he ⊢
      exact ⟨kind e he, by rw [state]; simp, (hposted ..).mpr (Or.inr ⟨e, he, rfl, rfl⟩)⟩
    · rw [hother j hj] at he ⊢
      obtain ⟨hkind, hstate, hp⟩ := h.jobs j e he
      exact ⟨hkind, hstate, (hposted ..).mpr (Or.inl hp)⟩
  · rcases (hposted p q).mp hq with hq | ⟨e, he, rfl, rfl⟩
    · obtain ⟨hext, hrest⟩ := h.posted p q hq
      have hj : q.slot ≠ i := fun hi => (h.jobs q.slot _ hext).2.1 (hi ▸ idle)
      rw [hother q.slot hj]
      exact ⟨hext, hrest⟩
    · rw [hself]
      exact ⟨he, (hfree e he).1, (hfree e he).2⟩

theorem postDiscardBatch_spec (h : Inv w) {batch : List Range}
    (distinct : (batch.map Range.start).Nodup)
    (fresh : ∀ e ∈ batch, e ∈ w.free ∧ w.posted_discard e.start = none ∧
      ∀ q ∈ w.pending, q.1 ≠ e.start) :
    Inv (postDiscardBatch batch w) ∧ Keeps w (postDiscardBatch batch w) := by
  rw [postDiscardBatch.eq_def]
  split
  · exact ⟨h, (Frame.refl w).keeps⟩
  · next hne =>
    obtain ⟨inv, frame, idle⟩ := takeSlot_spec h
    generalize htake : takeSlot w = t at inv frame idle
    obtain ⟨i, w'⟩ := t
    dsimp only at inv frame idle ⊢
    refine ⟨inv.fill idle (fun _ _ => rfl) rfl (fun p q => ?_) (fun e he => ?_) _,
      frame.keeps.pending, frame.keeps.order, frame.keeps.bytes, frame.keeps.cfg,
      frame.keeps.window, frame.keeps.commits⟩
    · exact foldl_emplace i batch _ distinct
        (fun e he => frame.posted_none (fresh e he).2.1) p q
    · rw [frame.free, frame.pending]
      exact ⟨(fresh e he).1, (fresh e he).2.2⟩

/-- The window moves to its new end, from what was committed before. -/
theorem inv_committed (h : Inv w) (target : ℕ) (r : Range) :
    Inv (({ w with window_end := target } : State).record (.committed r)) :=
  ⟨h.legal, h.sound.cons (by simp), h.keys, h.pending_free, h.untouched, h.bytes, h.jobs, h.posted⟩

/-- What a sync point has committed: nothing, or what follows the bump pointer and the
    window. -/
def Topped (bump : ℕ) (w w' : State) : Prop :=
  (w'.window_end = w.window_end ∧ commits w'.history = commits w.history) ∨
  ∃ target, max bump w.window_end ≤ target ∧ w'.window_end = target ∧ commits w'.history
    = ⟨max bump w.window_end, target - max bump w.window_end⟩ :: commits w.history

theorem postPopulate_spec (h : Inv w) (lo hi : ℕ) :
    Inv (postPopulate lo hi w) ∧ Keeps w (postPopulate lo hi w) := by
  obtain ⟨inv, frame, idle⟩ := takeSlot_spec h
  rw [postPopulate]
  generalize takeSlot w = t at inv frame idle
  obtain ⟨i, w'⟩ := t
  dsimp only at inv frame idle ⊢
  have hnil : (w'.slots i).extents = [] :=
    List.eq_nil_iff_forall_not_mem.mpr fun e he => (inv.jobs i e he).2.1 idle
  refine ⟨inv.fill idle ?_ rfl ?_ ?_ _, frame.keeps.pending, frame.keeps.order,
    frame.keeps.bytes, frame.keeps.cfg, frame.keeps.window, frame.keeps.commits⟩
  · simp [hnil]
  · intro p q
    simp [hnil, State.setSlot]
  · simp [hnil]

/-- What changes when the window moves: its end, and what is committed. -/
theorem moveWindow_keeps (w : State) (target : ℕ) (r : Range) {w' : State}
    (h : w' = ({ w with window_end := target } : State).record (.committed r)) :
    w'.pending = w.pending ∧ w'.pending_order = w.pending_order ∧
    w'.pending_bytes = w.pending_bytes ∧ w'.cfg = w.cfg ∧ w'.window_end = target ∧
    commits w'.history = r :: commits w.history := by
  subst h
  exact ⟨rfl, rfl, rfl, rfl, rfl, rfl⟩

theorem topUpWindow_spec (h : Inv w) (bump cap_end : ℕ) (committed : Bool) :
    Inv (topUpWindow bump cap_end committed w) ∧
    (topUpWindow bump cap_end committed w).pending = w.pending ∧
    (topUpWindow bump cap_end committed w).pending_order = w.pending_order ∧
    (topUpWindow bump cap_end committed w).pending_bytes = w.pending_bytes ∧
    (topUpWindow bump cap_end committed w).cfg = w.cfg ∧
    Topped bump w (topUpWindow bump cap_end committed w) := by
  have hlo : (if w.window_end ≠ 0 ∧ bump < w.window_end then w.window_end else bump)
      = max bump w.window_end := by
    split_ifs <;> omega
  rw [topUpWindow.eq_def]
  dsimp only
  rw [hlo]
  generalize min (roundUp (bump + w.cfg.ahead_bytes) kWindowGranule) cap_end = target
  split
  · exact ⟨h, rfl, rfl, rfl, rfl, Or.inl ⟨rfl, rfl⟩⟩
  split
  · exact ⟨h, rfl, rfl, rfl, rfl, Or.inl ⟨rfl, rfl⟩⟩
  split
  · exact ⟨h, rfl, rfl, rfl, rfl, Or.inl ⟨rfl, rfl⟩⟩
  · next hlt _ =>
    have inv := inv_committed h target
      ⟨max bump w.window_end, target - max bump w.window_end⟩
    generalize hw' : ({ w with window_end := target } : State).record
      (.committed ⟨max bump w.window_end, target - max bump w.window_end⟩) = w' at inv ⊢
    obtain ⟨pending, order, bytes, cfg, window, hcommits⟩ := moveWindow_keeps w target _ hw'.symm
    obtain ⟨inv', keeps⟩ := postPopulate_spec inv (max bump w.window_end) target
    exact ⟨inv', keeps.pending.trans pending, keeps.order.trans order, keeps.bytes.trans bytes,
      keeps.cfg.trans cfg, Or.inr ⟨target, by omega, keeps.window.trans window,
        keeps.commits.trans hcommits⟩⟩

theorem Inv.atEpoch (h : Inv w) (epoch major_epoch : UInt64) :
    Inv { w with epoch := epoch, major_epoch := major_epoch } :=
  ⟨h.legal, h.sound, h.keys, h.pending_free, h.untouched, h.bytes, h.jobs, h.posted⟩

/-- What is picked can be posted. -/
theorem Picked.post {r : List Range × State} (h : Inv w) (picked : Picked w r) :
    Inv (postDiscardBatch r.1 r.2) ∧ Keeps r.2 (postDiscardBatch r.1 r.2) := by
  obtain ⟨hhistory, -, hposted, -, -⟩ := picked.rest
  refine postDiscardBatch_spec picked.inv picked.distinct fun e he => ⟨?_, ?_, fun q hq => ?_⟩
  · obtain ⟨q, hq, rfl⟩ := picked.batch e he
    rw [State.free, hhistory]
    exact h.pending_free q hq
  · obtain ⟨q, hq, rfl⟩ := picked.batch e he
    rw [hposted]
    exact h.posted_none hq
  · exact (picked.left q hq).2 e he

theorem syncPoint_spec (h : Inv w) (ordered : Ordered w) (epoch major_epoch : UInt64)
    (bump cap_end : ℕ) (committed : Bool) {w' : State}
    (hw' : w' = syncPoint epoch major_epoch bump cap_end committed w) :
    Inv w' ∧ Ordered w' ∧ w'.cfg = w.cfg ∧
    (w.cfg.pending_cap ≠ 0 → w'.pending_bytes ≤ w.cfg.pending_cap) ∧ Topped bump w w' := by
  obtain ⟨inv, frame⟩ := reapDone_advances w h
  rw [syncPoint] at hw'
  generalize reapDone w = w₁ at inv frame hw'
  have inv₁ := inv.atEpoch epoch major_epoch
  have hordered : ∀ q ∈ w₁.pending, ⟨q.1, q.2.seq⟩ ∈ w₁.pending_order := by
    rw [frame.pending, frame.order]
    exact ordered
  have picked := ageLoop_spec inv₁ w₁.pending_order hordered
  have hrest := picked.rest
  obtain ⟨inv₂, keeps⟩ := picked.post inv₁
  dsimp only at hw'
  generalize ageLoop w₁.pending_order _ = r at picked hrest inv₂ keeps hw'
  obtain ⟨inv₃, hpending, horder, hbytes, hcfg, htopped⟩ :=
    topUpWindow_spec inv₂ bump cap_end committed
  rw [← hw'] at inv₃ hpending horder hbytes hcfg htopped
  have hcfg₁ : w'.cfg = w₁.cfg := hcfg.trans (keeps.cfg.trans hrest.2.2.2.1)
  have hwindow := (keeps.window.trans hrest.2.2.2.2).trans frame.window
  have hcommits := (keeps.commits.trans (congrArg commits hrest.1)).trans frame.commits
  refine ⟨inv₃, ?_, hcfg₁.trans frame.cfg, fun hcap => ?_, ?_⟩
  · intro q hq
    rw [horder, keeps.order]
    rw [hpending, keeps.pending] at hq
    exact picked.ordered q hq
  · rw [hbytes, keeps.bytes, ← frame.cfg]
    exact picked.cap (by rw [← frame.cfg] at hcap; exact hcap)
  · rw [Topped, hwindow, hcommits] at htopped
    exact htopped

/-! ## Release and reuse -/

/-- A free extent that is Pending is the one recorded at its address. -/
theorem Inv.pending_eq (h : Inv w) {r : Range} (hr : r ∈ w.free) {q : ℕ × Pending}
    (hq : q ∈ w.pending) (heq : q.1 = r.start) : ⟨q.1, q.2.size⟩ = r :=
  h.legal.eq_of_start (h.pending_free q hq) hr heq

/-- An extent that is apart from everything free is released. -/
theorem Inv.released (h : Inv w) {r : Range} (pos : 0 < r.size)
    (apart : ∀ f ∈ w.free, Apart f r) : Inv (w.record (.released r)) where
  legal := ⟨h.legal, pos, apart⟩
  sound := h.sound.cons (by simp)
  keys := h.keys
  pending_free q hq := List.mem_cons_of_mem _ (h.pending_free q hq)
  untouched q hq := Or.inr (h.untouched q hq)
  bytes := h.bytes
  jobs := h.jobs
  posted p q hq := by
    obtain ⟨hext, hfree, hother⟩ := h.posted p q hq
    exact ⟨hext, List.mem_cons_of_mem _ hfree, hother⟩

/-- Nothing is recorded for an extent that is apart from everything free. -/
theorem Inv.untracked (h : Inv w) {r : Range} (pos : 0 < r.size)
    (apart : ∀ f ∈ w.free, Apart f r) :
    (∀ q ∈ w.pending, q.1 ≠ r.start) ∧ w.posted_discard r.start = none := by
  have hne : ∀ f ∈ w.free, f.start ≠ r.start := by
    intro f hf heq
    have hsize := h.legal.size_pos f hf
    rcases apart f hf with hle | hle <;> rw [Range.stop] at hle <;> omega
  refine ⟨fun q hq => hne _ (h.pending_free q hq), ?_⟩
  refine Option.eq_none_iff_forall_ne_some.mpr fun q hq => ?_
  exact hne _ (h.posted r.start q hq).2.1 rfl

/-- A released extent becomes Pending. -/
theorem Inv.track (h : Inv w) {r : Range} (hfree : r ∈ w.free)
    (hu : Untouched r (ops w.history)) (hother : ∀ q ∈ w.pending, q.1 ≠ r.start)
    (hposted : w.posted_discard r.start = none) (epoch major_epoch : UInt64) (seq n : ℕ)
    (order : List OrderEntry) :
    Inv { w with
      next_release_seq := n
      pending := (r.start, ⟨r.size, epoch, major_epoch, seq⟩) :: w.pending
      pending_order := order
      pending_bytes := w.pending_bytes + r.size } where
  legal := h.legal
  sound := h.sound
  keys := by
    refine List.nodup_cons.mpr ⟨fun hmem => ?_, h.keys⟩
    obtain ⟨q, hq, heq⟩ := List.mem_map.mp hmem
    exact hother q hq heq
  pending_free q hq := by
    rcases List.mem_cons.mp hq with rfl | hq
    · exact hfree
    · exact h.pending_free q hq
  untouched q hq := by
    rcases List.mem_cons.mp hq with rfl | hq
    · exact hu
    · exact h.untouched q hq
  bytes := by
    rw [List.map_cons, List.sum_cons, Nat.add_comm]
    exact congrArg (fun k => r.size + k) h.bytes
  jobs := h.jobs
  posted p q hq := by
    obtain ⟨hext, hfree, hrest⟩ := h.posted p q hq
    refine ⟨hext, hfree, fun x hx => ?_⟩
    rcases List.mem_cons.mp hx with rfl | hx
    · rintro rfl
      rw [hq] at hposted
      cases hposted
    · exact hrest x hx

theorem trackReleased_spec (h : Inv w) (ordered : Ordered w) {r : Range} (hfree : r ∈ w.free)
    (hu : Untouched r (ops w.history)) (hother : ∀ q ∈ w.pending, q.1 ≠ r.start)
    (hposted : w.posted_discard r.start = none) :
    ∃ w', trackReleased r.start r.size w = some w' ∧ Inv w' ∧ Ordered w' ∧
      w'.cfg = w.cfg ∧ w'.window_end = w.window_end ∧ commits w'.history = commits w.history := by
  rw [trackReleased]
  split
  · exact ⟨w, rfl, h, ordered, rfl, rfl, rfl⟩
  · have hnot : ¬ ((w.findPending r.start).isSome ∨ (w.posted_discard r.start).isSome) := by
      rw [hposted]
      rintro (hsome | hsome)
      · obtain ⟨it, hit⟩ := Option.isSome_iff_exists.mp hsome
        exact hother _ (mem_of_findPending hit) rfl
      · cases hsome
    rw [if_neg hnot]
    refine ⟨_, rfl, h.track hfree hu hother hposted .., fun q hq => ?_, rfl, rfl, rfl⟩
    rcases List.mem_cons.mp hq with rfl | hq
    · exact List.mem_append_right _ (List.mem_singleton.mpr rfl)
    · exact List.mem_append_left _ (ordered q hq)

/-- A release of what is apart from everything free does not abort. -/
theorem onRelease_spec (h : Inv w) (ordered : Ordered w) {r : Range} (pos : 0 < r.size)
    (apart : ∀ f ∈ w.free, Apart f r) :
    ∃ w', onRelease r.start r.size (w.record (.released r)) = some w' ∧ Inv w' ∧ Ordered w' ∧
      w'.cfg = w.cfg ∧ w'.window_end = w.window_end ∧ commits w'.history = commits w.history := by
  obtain ⟨hother, hposted⟩ := h.untracked pos apart
  obtain ⟨inv, frame⟩ := awaitPopulateOverlapping_advances r.start r.size
    (w.record (.released r)) (h.released pos apart)
  have hfree : r ∈ (w.record (.released r)).free := List.mem_cons_self ..
  have hposted₁ : (w.record (.released r)).posted_discard r.start = none := by
    rw [State.record_posted_discard]
    exact hposted
  have hcommits : commits (w.record (.released r)).history = commits w.history := rfl
  have hcfg := frame.cfg
  have hwindow := frame.window
  have hpending := frame.pending
  have horder := frame.order
  rw [State.record_cfg] at hcfg
  rw [State.record_window_end] at hwindow
  rw [State.record_pending] at hpending
  rw [State.record_pending_order] at horder
  rw [onRelease]
  generalize awaitPopulateOverlapping r.start r.size (w.record (.released r)) = w₁ at *
  -- the wait advances the jobs, and none of them touches the range just released
  have hu := frame.untouched r hfree hposted₁ (Or.inl rfl)
  have hordered : Ordered w₁ := by
    rw [Ordered, hpending, horder]
    exact ordered
  have hother₁ : ∀ q ∈ w₁.pending, q.1 ≠ r.start := by
    rw [hpending]
    exact hother
  have hfree₁ : r ∈ w₁.free := by
    rw [frame.free]
    exact hfree
  obtain ⟨w', heq, inv', ordered', hcfg', hwindow', hcommits'⟩ :=
    trackReleased_spec inv hordered hfree₁ hu hother₁ (frame.posted_none hposted₁)
  exact ⟨w', heq, inv', ordered', hcfg'.trans hcfg, hwindow'.trans hwindow,
    hcommits'.trans (frame.commits.trans hcommits)⟩

/-- A free extent for which nothing is recorded any more is reused. -/
theorem Inv.reused (h : Inv w) {r : Range} (hr : r ∈ w.free) (res : Reuse)
    (hother : ∀ q ∈ w.pending, q.1 ≠ r.start) (hposted : w.posted_discard r.start = none)
    (hu : res = .cancelled → Untouched r (ops w.history)) : Inv (w.record (.reused r res)) where
  legal := ⟨h.legal, hr⟩
  sound := by
    refine h.sound.cons fun r' heq => ?_
    obtain ⟨rfl, hres⟩ := Event.reused.inj heq
    exact hu hres
  keys := h.keys
  pending_free q hq := by
    refine (List.mem_erase_of_ne fun heq => hother q hq ?_).mpr (h.pending_free q hq)
    exact congrArg Range.start heq
  untouched q hq := by
    refine ⟨fun heq => hother q hq ?_, h.untouched q hq⟩
    exact (congrArg Range.start heq).symm
  bytes := h.bytes
  jobs := h.jobs
  posted p q hq := by
    obtain ⟨hext, hfree, hrest⟩ := h.posted p q hq
    refine ⟨hext, (List.mem_erase_of_ne fun heq => ?_).mpr hfree, hrest⟩
    rw [← congrArg Range.start heq] at hposted
    cases hq.symm.trans hposted

theorem onReuse_spec (h : Inv w) (ordered : Ordered w) {r : Range} (hr : r ∈ w.free)
    {res : Reuse} {w' : State} (heq : onReuse r.start w = (res, w')) :
    Inv (w'.record (.reused r res)) ∧ Ordered w' ∧ w'.cfg = w.cfg ∧
      w'.window_end = w.window_end ∧ commits w'.history = commits w.history := by
  rw [onReuse] at heq
  split at heq
  · next it hit =>
    -- the extent is Pending
    obtain ⟨rfl, rfl⟩ := Prod.mk.inj heq
    have hmem := mem_of_findPending hit
    have hext := h.pending_eq hr hmem rfl
    have hposted := h.posted_none hmem
    refine ⟨(h.erase hmem).reused hr _ (fun q hq => (mem_erasePending.mp hq).2) hposted
      fun _ => ?_, fun q hq => ordered q (mem_erasePending.mp hq).1, rfl, rfl, rfl⟩
    rw [← hext]
    exact h.untouched _ hmem
  · next hnone =>
    have hother : ∀ q ∈ w.pending, q.1 ≠ r.start := fun q hq hstart =>
      findPending_ne_none hq (hstart ▸ hnone)
    split at heq
    · next it hit =>
      -- it is Posted: once its job is collected nothing is recorded for it
      obtain ⟨rfl, hw'⟩ := Prod.mk.inj heq
      obtain ⟨inv, frame, -, hslot⟩ := awaitSlot_spec h it.slot
      rw [hw'] at inv frame hslot
      have hposted : w'.posted_discard r.start = none := by
        refine Option.eq_none_iff_forall_ne_some.mpr fun q hq => ?_
        have hold := frame.posted r.start q hq
        rw [hit] at hold
        exact hslot r.start q hq (congrArg Posted.slot (Option.some.inj hold)).symm
      refine ⟨inv.reused (by rw [frame.free]; exact hr) _ (by rw [frame.pending]; exact hother)
        hposted (by rintro ⟨⟩), fun q hq => ?_, frame.cfg, frame.window, frame.commits⟩
      rw [frame.order]
      rw [frame.pending] at hq
      exact ordered q hq
    · next hposted =>
      split at heq <;> obtain ⟨rfl, rfl⟩ := Prod.mk.inj heq
      · exact ⟨h.reused hr _ hother hposted (by rintro ⟨⟩), ordered, rfl, rfl, rfl⟩
      · exact ⟨h.reused hr _ hother hposted (by rintro ⟨⟩), ordered, rfl, rfl, rfl⟩

/-! ## Draining -/

/-- The loop of `drainAll` discards Pending extents only. -/
theorem discardPending_spec (h : Inv w) (order : List OrderEntry) : ∃ history,
    discardPending order w = { w with history := history } ∧ Legal (ops history) ∧
    Sound history ∧ FreeLedger.free (ops history) = w.free ∧
    commits history = commits w.history := by
  rw [discardPending]
  induction order using List.reverseRecOn with
  | nil => exact ⟨w.history, rfl, h.legal, h.sound, rfl, rfl⟩
  | append_singleton order oe ih =>
    obtain ⟨history, heq, legal, sound, hfree, hcommits⟩ := ih
    rw [List.foldl_append, List.foldl_cons, List.foldl_nil, heq]
    split
    · exact ⟨history, rfl, legal, sound, hfree, hcommits⟩
    · next it hit =>
      split
      · exact ⟨history, rfl, legal, sound, hfree, hcommits⟩
      · refine ⟨.discarded ⟨oe.p, it.size⟩ :: history, rfl, ⟨legal, ?_⟩, sound.cons (by simp),
          hfree, hcommits⟩
        have hmem := h.pending_free _ (mem_of_findPending hit)
        rw [← hfree] at hmem
        exact hmem

theorem drainAll_spec (h : Inv w) (ordered : Ordered w) (discard_pending : Bool) {w' : State}
    (hw' : w' = drainAll discard_pending w) : Inv w' ∧ Ordered w' ∧ w'.cfg = w.cfg ∧
      w'.window_end = w.window_end ∧ commits w'.history = commits w.history := by
  obtain ⟨inv, frame⟩ := advances_foldl (fun w i => awaitSlot_advances i w) allSlots w h
  rw [drainAll] at hw'
  generalize allSlots.foldl (fun w i => awaitSlot i w) w = w₁ at inv frame hw'
  dsimp only at hw'
  split at hw'
  · obtain ⟨history, heq, legal, sound, hfree, hcommits⟩ := discardPending_spec inv w₁.pending_order
    rw [heq] at hw'
    subst hw'
    refine ⟨⟨legal, sound, List.nodup_nil, fun q hq => absurd hq List.not_mem_nil,
      fun q hq => absurd hq List.not_mem_nil, rfl, inv.jobs, fun p q hq => ?_⟩,
      fun q hq => absurd hq List.not_mem_nil, frame.cfg, frame.window, hcommits.trans frame.commits⟩
    obtain ⟨hext, hmem, -⟩ := inv.posted p q hq
    rw [← hfree] at hmem
    exact ⟨hext, hmem, fun x hx => absurd hx List.not_mem_nil⟩
  · subst hw'
    refine ⟨inv, fun q hq => ?_, frame.cfg, frame.window, frame.commits⟩
    rw [frame.order]
    rw [frame.pending] at hq
    exact ordered q hq

end

end PageWork

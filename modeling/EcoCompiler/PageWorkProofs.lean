import EcoCompiler.PageWorkCalls

/-! # Helpers never touch pages in use

    * `Safe` — what holds between two actions;
    * `safe_next`, `safe_run` — every action keeps it, so every run does;
    * `helpers_safe` — what it says about discards, cancelled reuses, the Pending bytes and the
      committed pages. -/

namespace PageWork

open Tiling FreeLedger Threads

/-- What holds between two actions, when the bump pointer was at `base` first. -/
structure Safe (cfg : PageWorkConfig) (base : ℕ) (m : Machine) : Prop where
  cfg : m.work.cfg = cfg
  inv : Inv m.work
  ordered : Ordered m.work
  le : base ≤ m.bump
  tiles : Tiles (commits m.work.history) base (max m.bump m.work.window_end)

section

variable {cfg : PageWorkConfig} {base : ℕ} {m m' : Machine}

theorem safe_start (cfg : PageWorkConfig) (populate_supported : Bool) (base : ℕ) :
    Safe cfg base (start cfg populate_supported base) where
  cfg := rfl
  inv := by
    refine ⟨trivial, ?_, List.nodup_nil, ?_, ?_, rfl, ?_, (fun _ _ h => by cases h)⟩
    · intro r older hsuf
      exact absurd (List.suffix_nil.mp hsuf) (List.cons_ne_nil _ _)
    · exact fun q hq => absurd hq List.not_mem_nil
    · exact fun q hq => absurd hq List.not_mem_nil
    · exact fun i e he => absurd he List.not_mem_nil
  ordered q hq := absurd hq List.not_mem_nil
  le := le_rfl
  tiles := by
    have hmax : max (start cfg populate_supported base).bump
        (start cfg populate_supported base).work.window_end = base := Nat.max_zero base
    rw [hmax]
    exact tiles_empty base

/-- A call that neither commits nor moves the window. -/
theorem Safe.call (h : Safe cfg base m) {w : State} (inv : Inv w) (ordered : Ordered w)
    (hcfg : w.cfg = m.work.cfg) (hwindow : w.window_end = m.work.window_end)
    (hcommits : commits w.history = commits m.work.history) :
    Safe cfg base { m with work := w } := by
  refine ⟨hcfg.trans h.cfg, inv, ordered, h.le, ?_⟩
  show Tiles (commits w.history) base (max m.bump w.window_end)
  rw [hwindow, hcommits]
  exact h.tiles

theorem Safe.helper (h : Safe cfg base m) (i : Fin kJobSlots) :
    Safe cfg base { m with work := helperStep i m.work } := by
  obtain ⟨inv, frame⟩ := helperStep_advances i m.work h.inv
  refine h.call inv (fun q hq => ?_) frame.cfg frame.window frame.commits
  rw [frame.order]
  rw [frame.pending] at hq
  exact h.ordered q hq

/-- A range is committed at the end of what is committed. -/
theorem Tiles.commit {history : List Event} {a b b' : ℕ} (h : Tiles (commits history) a b)
    (le : a ≤ b) (le' : b ≤ b') :
    Tiles (commits (.committed ⟨b, b' - b⟩ :: history)) a b' := by
  have hpush := h.push le (b' - b)
  rw [Nat.add_sub_cancel' le'] at hpush
  exact hpush

/-- What a fresh bump still needs begins where the committed memory ends. -/
theorem onFreshBump_spec (p n : ℕ) (w : State) :
    ((onFreshBump p n w).1 = 0 ∧ max (p + n) w.window_end = max p w.window_end) ∨
    ((onFreshBump p n w).1 ≠ 0 ∧ (onFreshBump p n w).2 = max p w.window_end ∧
      max p w.window_end + (onFreshBump p n w).1 = p + n ∧ w.window_end ≤ p + n) := by
  rw [onFreshBump]
  split_ifs <;> dsimp only <;> omega

/-- A fresh bump commits what lies past the window, and only that. -/
theorem Safe.fresh (h : Safe cfg base m) (n : ℕ) (committed : Bool) :
    Safe cfg base (freshBump n committed m) := by
  have hle := h.le
  have hspec := onFreshBump_spec m.bump n m.work
  rw [freshBump]
  generalize onFreshBump m.bump n m.work = r at hspec ⊢
  obtain ⟨bytes, commit_from⟩ := r
  dsimp only at hspec ⊢
  rcases hspec with ⟨hzero, hmax⟩ | ⟨hpos, rfl, hend, hwindow⟩
  · rw [if_pos hzero]
    refine ⟨h.cfg, h.inv, h.ordered, Nat.le_add_right_of_le hle, ?_⟩
    show Tiles _ base (max (m.bump + n) m.work.window_end)
    rw [hmax]
    exact h.tiles
  · rw [if_neg hpos]
    split
    · refine ⟨h.cfg, inv_committed h.inv m.work.window_end _, h.ordered,
        Nat.le_add_right_of_le hle, ?_⟩
      show Tiles (commits (_ :: m.work.history)) base (max (m.bump + n) m.work.window_end)
      have htiles := Tiles.commit h.tiles (by omega) (Nat.le_add_right _ bytes)
      rw [Nat.add_sub_cancel_left, hend] at htiles
      rw [Nat.max_eq_left hwindow]
      exact htiles
    · exact h

/-- A sync point may commit what follows the window. -/
theorem Safe.sync (h : Safe cfg base m) {w : State} (inv : Inv w) (ordered : Ordered w)
    (hcfg : w.cfg = m.work.cfg) (htopped : Topped m.bump m.work w) :
    Safe cfg base { m with work := w } := by
  rcases htopped with ⟨hwindow, hcommits⟩ | ⟨target, hle, hwindow, hcommits⟩
  · exact h.call inv ordered hcfg hwindow hcommits
  · refine ⟨hcfg.trans h.cfg, inv, ordered, h.le, ?_⟩
    show Tiles (commits w.history) base (max m.bump w.window_end)
    have hmax : max m.bump w.window_end = target := by omega
    rw [hmax, hcommits]
    exact Tiles.commit h.tiles (le_max_of_le_left h.le) hle

/-- The helpers' moves during a call do not matter for the invariant. -/
theorem Inv.withMoves {w : State} (h : Inv w) (moves : List (List (Fin kJobSlots))) :
    Inv { w with moves := moves } :=
  ⟨h.legal, h.sound, h.keys, h.pending_free, h.untouched, h.bytes, h.jobs, h.posted⟩

/-- A release that keeps the caller's obligations goes through. -/
theorem Safe.release (h : Safe cfg base m) {r : Range} (pos : 0 < r.size)
    (apart : ∀ f ∈ m.work.free, Apart f r) (moves : List (List (Fin kJobSlots))) :
    ∃ m', next (.release r moves) m = some m' ∧ Safe cfg base m' := by
  obtain ⟨w, heq, inv, ordered, hcfg, hwindow, hcommits⟩ :=
    onRelease_spec (h.inv.withMoves moves) h.ordered pos apart
  refine ⟨{ m with work := w }, ?_, h.call inv ordered hcfg hwindow hcommits⟩
  rw [next, if_pos ⟨pos, apart⟩, heq]
  rfl

theorem safe_next {act : Action} (hnext : next act m = some m') (h : Safe cfg base m) :
    Safe cfg base m' := by
  cases act with
  | helper i =>
    obtain rfl := Option.some.inj hnext
    exact h.helper i
  | release r moves =>
    -- the step is taken only for a range apart from what is free
    have hobliged : 0 < r.size ∧ ∀ f ∈ free (ops m.work.history), Apart f r := by
      by_contra hnot
      rw [next, if_neg hnot] at hnext
      cases hnext
    obtain ⟨m'', heq, safe⟩ := h.release hobliged.1 hobliged.2 moves
    rw [hnext] at heq
    rw [Option.some.inj heq]
    exact safe
  | reuse r moves =>
    rw [next] at hnext
    split at hnext
    · next hr =>
      cases hreuse : onReuse r.start { m.work with moves := moves } with
      | mk res w =>
        rw [hreuse] at hnext
        obtain rfl := Option.some.inj hnext
        obtain ⟨inv, ordered, hcfg, hwindow, hcommits⟩ :=
          onReuse_spec (h.inv.withMoves moves) h.ordered hr hreuse
        exact h.call inv ordered hcfg hwindow hcommits
    · cases hnext
  | fresh n committed =>
    obtain rfl := Option.some.inj hnext
    exact h.fresh n committed
  | sync epoch major_epoch cap_end committed moves =>
    obtain ⟨inv, ordered, hcfg, -, htopped⟩ := syncPoint_spec (h.inv.withMoves moves) h.ordered
      epoch major_epoch m.bump cap_end committed rfl
    obtain rfl := Option.some.inj hnext
    exact h.sync inv ordered hcfg htopped
  | drain discard_pending moves =>
    obtain ⟨inv, ordered, hcfg, hwindow, hcommits⟩ :=
      drainAll_spec (h.inv.withMoves moves) h.ordered discard_pending rfl
    obtain rfl := Option.some.inj hnext
    exact h.call inv ordered hcfg hwindow hcommits

/-- Every action keeps what holds, so every run does. -/
theorem safe_run {populate_supported : Bool}
    (run : Reaches next (start cfg populate_supported base) m) : Safe cfg base m :=
  run.invariant (safe_start cfg populate_supported base) fun _ _ _ => safe_next

/-! ## What it says -/

theorem released_mem_ops {history : List Event} {f : Range} :
    .released f ∈ ops history ↔ .released f ∈ history := by
  rw [ops, List.mem_filterMap]
  refine ⟨fun ⟨e, he, heq⟩ => ?_, fun h => ⟨_, h, rfl⟩⟩
  cases e with
  | released r =>
    obtain rfl := Op.released.inj (Option.some.inj heq)
    exact he
  | reused r res => cases Option.some.inj heq
  | discarded r => cases Option.some.inj heq
  | committed r => cases heq

/-- The history of the extents around a reuse. -/
theorem ops_reused {mid older : List Event} (r : Range) (res : Reuse) :
    ops (mid ++ .reused r res :: older) = ops mid ++ .reused r :: ops older :=
  List.filterMap_append

/-- What lies in nothing free lies in the extents of no job. -/
theorem Inv.not_in_job {w : State} (h : Inv w) {x : ℕ} (hx : ∀ f ∈ w.free, ¬ f.Covers x)
    (i : Fin kJobSlots) : ∀ e ∈ (w.slots i).extents, ¬ e.Covers x := by
  intro e he
  obtain ⟨-, -, hposted⟩ := h.jobs i e he
  exact hx e (h.posted e.start _ hposted).2.1

/-- After every run: between the reuse of an extent and the next release of a position of it,
    that position is not discarded and is in no job; what is reused as `Cancelled` was not
    discarded since its release; the Pending bytes are those of the Pending extents, and meet
    the cap after a sync point; exactly one commit covers each position below the bump pointer
    or in the window, and none any other; and no release aborts. -/
theorem helpers_safe {populate_supported : Bool}
    (run : Reaches next (start cfg populate_supported base) m) :
    (∀ r res mid older x, m.work.history = mid ++ .reused r res :: older → r.Covers x →
      (∀ f, .released f ∈ mid → ¬ f.Covers x) →
      (∀ d, .discarded d ∈ mid → ¬ d.Covers x) ∧
      ∀ i, ∀ e ∈ (m.work.slots i).extents, ¬ e.Covers x) ∧
    (∀ r older, .reused r .cancelled :: older <:+ m.work.history →
      ∃ since before, ops older = since ++ .released r :: before ∧
        (∀ d, .discarded d ∈ since → Apart d r) ∧ .reused r ∉ since) ∧
    m.work.pending_bytes = (m.work.pending.map fun q => q.2.size).sum ∧
    (∀ epoch major_epoch cap_end committed moves m', cfg.pending_cap ≠ 0 →
      next (.sync epoch major_epoch cap_end committed moves) m = some m' →
      m'.work.pending_bytes ≤ cfg.pending_cap) ∧
    Tiles (commits m.work.history) base (max m.bump m.work.window_end) ∧
    ∀ r moves, 0 < r.size → (∀ f ∈ m.work.free, Apart f r) →
      (next (.release r moves) m).isSome := by
  have h := safe_run run
  refine ⟨fun r res mid older x hhistory hx hmid => ?_, fun r older hsuf => ?_, h.inv.bytes,
    fun epoch major_epoch cap_end committed moves m' hcap hnext => ?_, h.tiles,
    fun r moves pos apart => ?_⟩
  · have hlegal := h.inv.legal
    rw [hhistory, ops_reused] at hlegal
    have hreleased : ∀ f, .released f ∈ ops mid → ¬ f.Covers x := fun f hf =>
      hmid f (released_mem_ops.mp hf)
    refine ⟨fun d hd => ?_, h.inv.not_in_job fun f hf => ?_⟩
    · exact hlegal.not_discarded_of_reused hx hreleased (List.mem_filterMap.mpr ⟨_, hd, rfl⟩)
    · rw [State.free, hhistory, ops_reused] at hf
      exact hlegal.not_free_of_reused hx hreleased f hf
  · exact (h.inv.sound r older hsuf).split
  · obtain ⟨-, -, -, hle, -⟩ := syncPoint_spec (h.inv.withMoves moves) h.ordered
      epoch major_epoch m.bump cap_end committed rfl
    obtain rfl := Option.some.inj hnext
    have hcfg : m.work.cfg = cfg := h.cfg
    subst hcfg
    exact hle hcap
  · obtain ⟨m', heq, -⟩ := h.release pos apart moves
    rw [heq]
    rfl

/-- An extent that is discarded after its release, and reused untouched after the next one. -/
theorem helpers_safe_twice : ∃ m, Reaches next
      (start ⟨true, 0, 0, 0, 4096⟩ true 4096) m ∧
    m.work.history = [.reused ⟨4096, 4096⟩ .cancelled, .released ⟨4096, 4096⟩,
      .reused ⟨4096, 4096⟩ .afterDiscard, .discarded ⟨4096, 4096⟩,
      .committed ⟨12288, 987712⟩, .released ⟨4096, 4096⟩, .committed ⟨4096, 8192⟩] ∧
    m.work.pending_bytes = 0 ∧ ∀ i, ∀ e ∈ (m.work.slots i).extents, ¬ e.Covers 5000 := by
  have hrun : (runs next
      [.fresh 8192 true, .release ⟨4096, 4096⟩ [], .sync 1 0 1000000 true [], .helper 0,
        .reuse ⟨4096, 4096⟩ [], .release ⟨4096, 4096⟩ [], .reuse ⟨4096, 4096⟩ []]
      (start ⟨true, 0, 0, 0, 4096⟩ true 4096)).map
        (fun m => (m.work.history, m.work.pending_bytes))
      = some ([.reused ⟨4096, 4096⟩ .cancelled, .released ⟨4096, 4096⟩,
        .reused ⟨4096, 4096⟩ .afterDiscard, .discarded ⟨4096, 4096⟩,
        .committed ⟨12288, 987712⟩, .released ⟨4096, 4096⟩, .committed ⟨4096, 8192⟩], 0) := by
    decide
  obtain ⟨m, hm, heq⟩ := Option.map_eq_some_iff.mp hrun
  obtain ⟨hhistory, hbytes⟩ := Prod.mk.inj heq
  have run := reaches_of_runs hm
  exact ⟨m, run, hhistory, hbytes, ((helpers_safe run).1 ⟨4096, 4096⟩ .cancelled [] _ 5000
    hhistory (by decide) (by simp)).2⟩

end

end PageWork

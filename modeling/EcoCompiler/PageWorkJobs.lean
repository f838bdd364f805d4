import EcoCompiler.PageWork

/-! # Jobs discard only what is free

    * `Inv` — Pending and Posted extents are free, each job slot holds exactly the extents
      recorded against it, and what is Pending has not been discarded since its release;
    * `Frame` — what the progress and the collection of jobs leave alone;
    * `helperStep_advances`, `reap_advances`, `takeSlot_spec` — both, for each step. -/

namespace PageWork

open Tiling FreeLedger

/-! ## The invariant -/

/-- The extents that are free. -/
def State.free (w : State) : List Range := FreeLedger.free (ops w.history)

/-- An extent reused as `Cancelled` was untouched. -/
def Sound (history : List Event) : Prop :=
  ∀ r older, .reused r .cancelled :: older <:+ history → Untouched r (ops older)

theorem Sound.cons {e : Event} {history : List Event} (h : Sound history)
    (he : ∀ r, e = .reused r .cancelled → Untouched r (ops history)) : Sound (e :: history) := by
  intro r older hsuf
  rcases List.suffix_cons_iff.mp hsuf with heq | hsuf
  · obtain ⟨rfl, rfl⟩ := List.cons.inj heq
    exact he r rfl
  · exact h r older hsuf

/-- What holds between two accesses to a job. -/
structure Inv (w : State) : Prop where
  legal : Legal (ops w.history)
  sound : Sound w.history
  keys : (w.pending.map Prod.fst).Nodup
  pending_free : ∀ q ∈ w.pending, ⟨q.1, q.2.size⟩ ∈ w.free
  untouched : ∀ q ∈ w.pending, Untouched ⟨q.1, q.2.size⟩ (ops w.history)
  bytes : w.pending_bytes = (w.pending.map fun q => q.2.size).sum
  jobs : ∀ i, ∀ e ∈ (w.slots i).extents, (w.slots i).kind = .discard ∧
    (w.slots i).state ≠ .idle ∧ w.posted_discard e.start = some ⟨e.size, i⟩
  posted : ∀ p q, w.posted_discard p = some q → ⟨p, q.size⟩ ∈ (w.slots q.slot).extents ∧
    ⟨p, q.size⟩ ∈ w.free ∧ ∀ x ∈ w.pending, x.1 ≠ p

/-- What the progress and the collection of jobs leave alone. -/
structure Frame (w w' : State) : Prop where
  cfg : w'.cfg = w.cfg
  epochs : w'.epoch = w.epoch ∧ w'.major_epoch = w.major_epoch
  pending : w'.pending = w.pending
  order : w'.pending_order = w.pending_order
  bytes : w'.pending_bytes = w.pending_bytes
  window : w'.window_end = w.window_end
  free : w'.free = w.free
  commits : commits w'.history = commits w.history
  posted : ∀ p q, w'.posted_discard p = some q → w.posted_discard p = some q
  untouched : ∀ r ∈ w.free, w.posted_discard r.start = none → Untouched r (ops w.history) →
    Untouched r (ops w'.history)

theorem Frame.refl (w : State) : Frame w w :=
  ⟨rfl, ⟨rfl, rfl⟩, rfl, rfl, rfl, rfl, rfl, rfl, fun _ _ h => h, fun _ _ _ h => h⟩

theorem frame_setSlot (w : State) (i : Fin kJobSlots) (s : PageJob) : Frame w (w.setSlot i s) :=
  ⟨rfl, ⟨rfl, rfl⟩, rfl, rfl, rfl, rfl, rfl, rfl, fun _ _ h => h, fun _ _ _ h => h⟩

/-- What is not recorded against a slot stays so. -/
theorem Frame.posted_none {w w' : State} (h : Frame w w') {p : ℕ}
    (hp : w.posted_discard p = none) : w'.posted_discard p = none := by
  refine Option.eq_none_iff_forall_ne_some.mpr fun q hq => ?_
  rw [h.posted p q hq] at hp
  cases hp

theorem Frame.trans {w w' w'' : State} (h : Frame w w') (h' : Frame w' w'') : Frame w w'' where
  cfg := h'.cfg.trans h.cfg
  epochs := ⟨h'.epochs.1.trans h.epochs.1, h'.epochs.2.trans h.epochs.2⟩
  pending := h'.pending.trans h.pending
  order := h'.order.trans h.order
  bytes := h'.bytes.trans h.bytes
  window := h'.window.trans h.window
  free := h'.free.trans h.free
  commits := h'.commits.trans h.commits
  posted p q hq := h.posted p q (h'.posted p q hq)
  untouched r hr hp hu :=
    h'.untouched r (h.free ▸ hr) (h.posted_none hp) (h.untouched r hr hp hu)

/-- A step that keeps the invariant and changes nothing outside the frame. -/
def Advances (w w' : State) : Prop := Inv w → Inv w' ∧ Frame w w'

theorem Advances.refl (w : State) : Advances w w := fun h => ⟨h, Frame.refl w⟩

theorem Advances.trans {w w' w'' : State} (h : Advances w w') (h' : Advances w' w'') :
    Advances w w'' := by
  intro inv
  obtain ⟨inv', frame⟩ := h inv
  obtain ⟨inv'', frame'⟩ := h' inv'
  exact ⟨inv'', frame.trans frame'⟩

theorem advances_foldl {α : Type} {f : State → α → State} (h : ∀ w a, Advances w (f w a))
    (l : List α) (w : State) : Advances w (l.foldl f w) := by
  induction l generalizing w with
  | nil => exact Advances.refl w
  | cons a l ih => exact (h w a).trans (ih (f w a))

/-! ## Helpers -/

section

variable {w : State} {i : Fin kJobSlots}

/-- A slot changes, but not what it is to discard. -/
theorem inv_setSlot (h : Inv w) {s : PageJob} (extents : s.extents = (w.slots i).extents)
    (kind : s.kind = (w.slots i).kind) (state : s.state ≠ .idle) : Inv (w.setSlot i s) := by
  have hextents : ∀ j, ((w.setSlot i s).slots j).extents = (w.slots j).extents := by
    intro j
    by_cases hj : j = i
    · subst hj
      exact (congrArg PageJob.extents (Function.update_self ..)).trans extents
    · exact congrArg PageJob.extents (Function.update_of_ne hj ..)
  refine ⟨h.legal, h.sound, h.keys, h.pending_free, h.untouched, h.bytes, fun j e he => ?_,
    fun p q hq => ?_⟩
  · rw [hextents j] at he
    obtain ⟨hkind, hstate, hposted⟩ := h.jobs j e he
    by_cases hj : j = i
    · subst hj
      have hself : (w.setSlot j s).slots j = s := Function.update_self ..
      rw [hself]
      exact ⟨kind.trans hkind, state, hposted⟩
    · have hother : (w.setSlot i s).slots j = w.slots j := Function.update_of_ne hj ..
      rw [hother]
      exact ⟨hkind, hstate, hposted⟩
  · rw [hextents q.slot]
    exact h.posted p q hq

/-- A job discards an extent that is its own. -/
theorem inv_discarded (h : Inv w) {e : Range} (he : e ∈ (w.slots i).extents) :
    Inv (w.record (.discarded e)) ∧ Frame w (w.record (.discarded e)) := by
  obtain ⟨-, -, hposted⟩ := h.jobs i e he
  obtain ⟨-, hfree, hother⟩ := h.posted e.start _ hposted
  refine ⟨?_, rfl, ⟨rfl, rfl⟩, rfl, rfl, rfl, rfl, rfl, rfl, fun _ _ h => h,
    fun r hr hp hu => ⟨?_, hu⟩⟩
  case refine_2 =>
    refine (h.legal.apart_or_eq hfree hr).resolve_left fun heq => ?_
    rw [← heq, hposted] at hp
    cases hp
  refine ⟨⟨h.legal, hfree⟩, h.sound.cons (by simp), h.keys, h.pending_free, fun q hq => ⟨?_, ?_⟩,
    h.bytes, h.jobs, h.posted⟩
  · -- what is Pending is not Posted, so it is another extent
    refine (h.legal.apart_or_eq hfree (h.pending_free q hq)).resolve_left fun heq => ?_
    exact hother q hq (congrArg Range.start heq).symm
  · exact h.untouched q hq

/-- A running job discards its next extent. -/
theorem discard_advances (h : Inv w) {count : ℕ} {e : Range} (he : e ∈ (w.slots i).extents) :
    Inv ((w.setSlot i { w.slots i with state := .running (count + 1) }).record (.discarded e)) ∧
    Frame w ((w.setSlot i { w.slots i with state := .running (count + 1) }).record
      (.discarded e)) := by
  have hset : Inv (w.setSlot i { w.slots i with state := .running (count + 1) }) :=
    inv_setSlot h rfl rfl (by rintro ⟨⟩)
  have hself : (w.setSlot i { w.slots i with state := .running (count + 1) }).slots i
      = { w.slots i with state := .running (count + 1) } := Function.update_self ..
  have he' : e ∈ ((w.setSlot i { w.slots i with state := .running (count + 1) }).slots
      i).extents := by
    rw [hself]
    exact he
  obtain ⟨inv, frame⟩ := inv_discarded hset he'
  exact ⟨inv, (frame_setSlot ..).trans frame⟩

theorem helperStep_advances (i : Fin kJobSlots) (w : State) : Advances w (helperStep i w) := by
  intro h
  simp only [helperStep]
  split
  · exact ⟨inv_setSlot h rfl rfl (by rintro ⟨⟩), frame_setSlot ..⟩
  · split
    · rename_i hget
      exact discard_advances h (List.mem_of_getElem? hget)
    · exact ⟨inv_setSlot h rfl rfl (by rintro ⟨⟩), frame_setSlot ..⟩
  · exact ⟨h, Frame.refl w⟩

theorem tick_advances (w : State) : Advances w (tick w) := by
  rw [tick]
  split
  · exact Advances.refl w
  · next now later _ =>
    have hmoves : Advances w { w with moves := later } := fun h =>
      ⟨⟨h.legal, h.sound, h.keys, h.pending_free, h.untouched, h.bytes, h.jobs, h.posted⟩,
        ⟨rfl, ⟨rfl, rfl⟩, rfl, rfl, rfl, rfl, rfl, rfl, fun _ _ hp => hp, fun _ _ _ hu => hu⟩⟩
    exact hmoves.trans (advances_foldl (fun w i => helperStep_advances i w) now _)

/-! ## Collecting -/

theorem forget_eq_some_iff (i : Fin kJobSlots) (posted : ℕ → Option Posted) (e : Range) (p : ℕ)
    (q : Posted) : forget i posted e p = some q ↔
      posted p = some q ∧ ¬ (q.slot = i ∧ e.start = p) := by
  rw [forget]
  by_cases hp : e.start = p
  · subst hp
    cases he : posted e.start with
    | none => simp [he]
    | some r =>
      by_cases hr : r.slot = i
      · simp only [hr, if_true, Function.update_self, and_true]
        refine iff_of_false (by rintro ⟨⟩) fun h => ?_
        obtain rfl := Option.some.inj h.1
        exact h.2 hr
      · simp only [hr, if_false, he, and_true]
        refine ⟨fun h => ⟨h, ?_⟩, fun h => h.1⟩
        obtain rfl := Option.some.inj h
        exact hr
  · simp only [hp, and_false, not_false_eq_true, and_true]
    cases posted e.start with
    | none => rfl
    | some r =>
      by_cases hr : r.slot = i
      · simp only [hr, if_true, Function.update_of_ne (Ne.symm hp)]
      · simp only [hr, if_false]

/-- The entries that are left when a job's extents are forgotten. -/
theorem foldl_forget (i : Fin kJobSlots) (extents : List Range) (posted : ℕ → Option Posted)
    (p : ℕ) (q : Posted) : extents.foldl (forget i) posted p = some q ↔
      posted p = some q ∧ ¬ (q.slot = i ∧ ∃ e ∈ extents, e.start = p) := by
  induction extents generalizing posted with
  | nil => simp
  | cons e extents ih =>
    rw [List.foldl_cons, ih, forget_eq_some_iff]
    simp only [List.mem_cons, exists_eq_or_imp]
    rw [and_assoc, ← not_or, ← and_or_left]

/-- Whatever the kind of the job, its extents are forgotten. -/
theorem reap_eq (h : Inv w) (i : Fin kJobSlots) : reap i w
    = ({ w with posted_discard := (w.slots i).extents.foldl (forget i) w.posted_discard } :
        State).setSlot i { seq := (w.slots i).seq } := by
  have hnil : (w.slots i).kind ≠ .discard → (w.slots i).extents = [] := fun hkind =>
    List.eq_nil_iff_forall_not_mem.mpr fun e he => hkind (h.jobs i e he).1
  simp only [reap]
  split
  · rfl
  · next hkind =>
    rw [hnil hkind]
    rfl

/-- A slot whose job is collected holds nothing, and nothing is recorded against it. -/
theorem reap_spec (h : Inv w) (i : Fin kJobSlots) :
    Inv (reap i w) ∧ Frame w (reap i w) ∧ ((reap i w).slots i).state = .idle ∧
      ∀ p q, (reap i w).posted_discard p = some q ↔ w.posted_discard p = some q ∧ q.slot ≠ i := by
  rw [reap_eq h i]
  generalize hw' : ({ w with
    posted_discard := (w.slots i).extents.foldl (forget i) w.posted_discard } : State).setSlot i
      { seq := (w.slots i).seq } = w'
  have hself : w'.slots i = { seq := (w.slots i).seq } := by
    rw [← hw']
    exact Function.update_self ..
  have hother : ∀ j, j ≠ i → w'.slots j = w.slots j := by
    intro j hj
    rw [← hw']
    exact Function.update_of_ne hj ..
  -- exactly the records against this slot are taken away
  have hposted : ∀ p q, w'.posted_discard p = some q ↔
      w.posted_discard p = some q ∧ q.slot ≠ i := by
    intro p q
    have hfold : w'.posted_discard = (w.slots i).extents.foldl (forget i) w.posted_discard := by
      rw [← hw']
      rfl
    rw [hfold, foldl_forget]
    refine and_congr_right fun hq => not_congr ⟨fun hi => hi.1, fun hi => ⟨hi, ?_⟩⟩
    have hext := (h.posted p q hq).1
    rw [hi] at hext
    exact ⟨_, hext, rfl⟩
  have frame : Frame w w' := by
    subst hw'
    exact ⟨rfl, ⟨rfl, rfl⟩, rfl, rfl, rfl, rfl, rfl, rfl, fun p q hq => ((hposted p q).mp hq).1,
      fun _ _ _ hu => hu⟩
  have hhistory : w'.history = w.history := by
    rw [← hw']
    rfl
  refine ⟨?_, frame, by rw [hself], hposted⟩
  refine ⟨?_, ?_, ?_, ?_, ?_, ?_, fun j e he => ?_, fun p q hq => ?_⟩
  · rw [hhistory]
    exact h.legal
  · rw [hhistory]
    exact h.sound
  · rw [frame.pending]
    exact h.keys
  · rw [frame.pending, frame.free]
    exact h.pending_free
  · rw [frame.pending, hhistory]
    exact h.untouched
  · rw [frame.pending, frame.bytes]
    exact h.bytes
  · by_cases hj : j = i
    · rw [hj, hself] at he
      exact absurd he List.not_mem_nil
    · rw [hother j hj] at he ⊢
      obtain ⟨hkind, hstate, hp⟩ := h.jobs j e he
      exact ⟨hkind, hstate, (hposted _ _).mpr ⟨hp, hj⟩⟩
  · obtain ⟨hp, hslot⟩ := (hposted p q).mp hq
    rw [hother q.slot hslot, frame.free, frame.pending]
    exact h.posted p q hp

theorem reap_advances (i : Fin kJobSlots) (w : State) : Advances w (reap i w) := fun h =>
  ⟨(reap_spec h i).1, (reap_spec h i).2.1⟩

theorem reapDone_advances (w : State) : Advances w (reapDone w) := by
  refine advances_foldl (fun w i => ?_) allSlots w
  refine (tick_advances w).trans ?_
  dsimp only
  split
  · exact reap_advances i (tick w)
  · exact Advances.refl _

theorem runToDone_advances (i : Fin kJobSlots) (w : State) : Advances w (runToDone i w) := by
  rw [runToDone]
  generalize (w.slots i).extents.length + 2 = k
  induction k generalizing w with
  | zero => exact Advances.refl w
  | succ k ih => exact (helperStep_advances i w).trans (ih (helperStep i w))

/-- After a wait, nothing is recorded against the slot. -/
theorem awaitSlot_spec (h : Inv w) (i : Fin kJobSlots) :
    Inv (awaitSlot i w) ∧ Frame w (awaitSlot i w) ∧ ((awaitSlot i w).slots i).state = .idle ∧
      ∀ p q, (awaitSlot i w).posted_discard p = some q → q.slot ≠ i := by
  rw [awaitSlot]
  split
  · next hidle =>
    refine ⟨h, Frame.refl w, hidle, fun p q hq hi => ?_⟩
    have hext := (h.posted p q hq).1
    rw [hi] at hext
    exact (h.jobs i _ hext).2.1 hidle
  · obtain ⟨inv, frame⟩ := ((tick_advances w).trans (runToDone_advances i (tick w))) h
    obtain ⟨inv', frame', hidle, hposted⟩ := reap_spec inv i
    exact ⟨inv', frame.trans frame', hidle, fun p q hq => ((hposted p q).mp hq).2⟩

theorem awaitSlot_advances (i : Fin kJobSlots) (w : State) : Advances w (awaitSlot i w) :=
  fun h => ⟨(awaitSlot_spec h i).1, (awaitSlot_spec h i).2.1⟩

theorem awaitPopulateOverlapping_advances (p n : ℕ) (w : State) :
    Advances w (awaitPopulateOverlapping p n w) := by
  refine advances_foldl (fun w i => ?_) allSlots w
  dsimp only
  split
  · exact Advances.refl w
  · split
    · exact awaitSlot_advances i w
    · exact Advances.refl w

/-- The slot that is taken is idle. -/
theorem takeSlot_spec (h : Inv w) : Inv (takeSlot w).2 ∧ Frame w (takeSlot w).2 ∧
    ((takeSlot w).2.slots (takeSlot w).1).state = .idle := by
  obtain ⟨inv, frame⟩ := reapDone_advances w h
  have htake : takeSlot w = idleOrOldest (reapDone w) := rfl
  rw [htake]
  generalize reapDone w = v at inv frame
  rw [idleOrOldest]
  split
  · next i hfind =>
    have hidle := List.find?_some hfind
    exact ⟨inv, frame, of_decide_eq_true hidle⟩
  · obtain ⟨inv', frame', hidle, -⟩ := awaitSlot_spec inv (oldestSlot v)
    exact ⟨inv', frame.trans frame', hidle⟩

end

end PageWork

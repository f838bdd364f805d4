import EcoCompiler.WsCorePauseInput

/-! # Why reading is paused: the inflater and the decoder at work

    * `WsCore.PauseInv.inflateLoop`, `WsCore.PauseInv.inflateEnd` — a turn of the inflater,
      and what follows the last;
    * `WsCore.PauseInv.abandon` — the message given up;
    * `WsCore.PauseInv.maybeFinishBody`, `WsCore.PauseInv.releaseHold` — a body dropped,
      and the input after its message;
    * `WsCore.PauseInv.processLoop`, `WsCore.PauseInv.feedTurn` and the others — the
      decoder fed. -/

namespace WsCore

open State
open WsFrame (Event WsDecoder kOpText kOpClose kOpPing kOpPong)

/-! ## Control frames -/

/-- After a plain piece the invariant still holds. -/
theorem PauseOk.after {s : State} {e : Exec} {k : List Stmt} (h : PauseOk s.reading k)
    (he : Plain s e) : PauseOk e.1.reading (e.2 ++ k) := by
  rw [he.1]
  exact h.kinds (.append e.2 k he.2) (resumed_append e.2 h.resumed)

theorem onPong_plain (c : Choice) (s : State) (payload : Bytes) :
    Plain s (s.onPong c payload) := by
  unfold State.onPong
  dsimp only
  split
  · refine ⟨rfl, ?_⟩
    dsimp only
    split <;> rfl
  · exact ⟨rfl, rfl⟩

/-- A close frame ends the input. -/
theorem onClose_inputDone (s : State) (payload : Bytes) :
    (s.onClose payload).1.rx.inputDone = true := by
  unfold State.onClose
  dsimp only
  split
  · rfl
  · show (State.setCloseInfo _ _ _ _).rx.inputDone = true
    rw [setCloseInfo_rx]
    rfl

/-- A control frame. -/
theorem PauseInv.onControl {s : State} {k : List Stmt} {opcode : Nat} {payload : Bytes}
    (h : PauseOk s.reading k) : PauseInv s (.sink (.onControl opcode payload) :: k) := by
  refine .next (fun h => by cases h) fun c => ?_
  show PauseAfter (s.onControl c opcode payload) k
  unfold State.onControl
  split
  · exact .settled h
  split
  · split
    · exact .settled h
    · exact .settled (h.after (writeControl_plain s _ _ _))
  split
  · exact .settled (h.after (onPong_plain c s payload))
  split
  · exact .past (.inl (onClose_inputDone s payload))
  · exact .settled h

/-! ## The inflater -/

/-- What a step of the inflater leaves. -/
def Inflater.Left (i : Inflater) : Inflater × InflateStep → Prop
  | (i', .Output _) => i'.finished = i.finished
  | (i', .NeedInput) => i'.input = [] ∧ i'.finished = false ∧ i.finished = false
  | (i', .Done) => i' = {} ∧ i.finished = true
  | (_, .Error) => True

theorem Inflater.step_left (zs : List ZResult) : ∀ i : Inflater, i.Left (i.step zs) := by
  have hempty : ∀ i : Inflater, i.input = [] →
      i.Left (if i.finished then ({ input := [], finished := false }, .Done)
        else (i, .NeedInput)) := by
    intro i hinput
    cases hf : i.finished with
    | true => exact ⟨rfl, hf⟩
    | false => exact ⟨hinput, hf, hf⟩
  induction zs with
  | nil =>
      intro i
      rw [Inflater.step]
      split
      · exact hempty i ‹_›
      · trivial
  | cons z zs ih =>
      intro i
      rw [Inflater.step]
      have hrest : i.Left (Inflater.step zs { i with input := i.input.drop z.consumed }) :=
        ih { i with input := i.input.drop z.consumed }
      split
      · exact hempty i ‹_›
      · dsimp only
        split
        · split
          · rfl
          · exact hrest
        · split
          · split
            · rfl
            · split
              · exact hrest
              · trivial
          · trivial

/-- A piece of the inflate loop is of no other kind. -/
theorem Stmt.isPump_kinds {p : Stmt} (h : p.isPump = true) :
    p.isTop = false ∧ p.isFeeder = false ∧ p.isMidFeed = false ∧ p.isFeedTurn = false
      ∧ p.isFinish = false ∧ p.isInput = false ∧ p.isPushClose = false ∧ p.isRelease = false
      ∧ p.isAbandon = false := by
  cases p with
  | inflateLoop => exact ⟨rfl, rfl, rfl, rfl, rfl, rfl, rfl, rfl, rfl⟩
  | inflateEnd => exact ⟨rfl, rfl, rfl, rfl, rfl, rfl, rfl, rfl, rfl⟩
  | _ => exact Bool.noConfusion h

theorem no_loop {k : List Stmt} (h : k.countP Stmt.isPump = 0) : k.any Stmt.isLoop = false := by
  refine List.any_eq_false.mpr fun p hp hl => ?_
  have hpump := List.countP_eq_zero.mp h p hp
  cases p with
  | inflateLoop => exact hpump rfl
  | _ => cases hl

/-- Only one `pumpInflate` runs at a time. -/
theorem StackSound.only_pump {r : Reading} {p : Stmt} {k : List Stmt}
    (h : StackSound r (p :: k)) (hp : p.isPump = true) :
    r.pumpingInflate = true ∧ k.countP Stmt.isPump = 0 := by
  have hpumps := h.pumps
  rw [List.countP_cons_of_pos hp] at hpumps
  cases hr : r.pumpingInflate with
  | true =>
      rw [hr, if_pos rfl] at hpumps
      exact ⟨rfl, Nat.succ.inj hpumps⟩
  | false =>
      rw [hr] at hpumps
      cases hpumps

/-- `pumpInflate` left. -/
theorem PauseOk.popPump {r : Reading} {p : Stmt} {k : List Stmt} (h : PauseOk r (p :: k))
    (hp : p.isPump = true) :
    PauseCore { r with pumpingInflate := false } k ∧ (∀ b, r.body = some b → BodySettled b k)
      ∧ Phase r k := by
  obtain ⟨htop, hfeeder, hmid, hturn, hfinish, hinput, hclose, hrelease, habandon⟩ :=
    Stmt.isPump_kinds hp
  obtain ⟨-, hpumps⟩ := h.stack.only_pump hp
  refine ⟨⟨h.notFailed, ⟨h.queue.bytes, h.queue.unready, h.queue.shut⟩, ?_, h.body,
    ⟨h.inflater.left, h.inflater.finished, h.inflater.ready⟩⟩, fun b hb => ?_, ?_⟩
  · constructor
    · exact (any_cons_of_false htop).symm.trans h.stack.top
    · exact (countP_cons_of_false hfeeder).symm.trans h.stack.feeders
    · exact hpumps
    · intro hs
      have hfed := h.stack.fed hs
      rw [fedPumps, Bool.and_eq_true] at hfed
      exact hfed.2
    · rw [← any_cons_of_false hinput]
      exact h.stack.pending
    · rw [← any_cons_of_false hclose]
      exact h.stack.closing
    · rw [← any_cons_of_false hrelease]
      exact h.stack.release
    · rw [← any_cons_of_false habandon]
      exact h.stack.abandoned
    · exact fun hpumping => by cases hpumping
  · exact ⟨(h.settled b hb).reads, fun hf => (any_cons_of_false hfinish).symm.trans
      ((h.settled b hb).finished hf)⟩
  · refine h.phase.frame ⟨(any_cons_of_false hrelease).symm, (any_cons_of_false habandon).symm, ?_,
      ?_, ?_⟩
    · rw [any_cons_of_false hmid]
      exact id
    · rw [any_cons_of_false hturn]
      exact id
    · rw [any_cons_of_false hfeeder]
      exact id

/-- The end of `pumpInflate`, where the body can go on with what is left to inflate. -/
theorem PauseInv.inflateEnd {s : State} {k : List Stmt}
    (hcore : PauseCore { s.reading with pumpingInflate := false } k)
    (hsettled : ∀ b, s.rx.body = some b → BodySettled b k)
    (hdue : s.reading.inflateDue = true → Spare s.reading) (hphase : Phase s.reading k) :
    PauseAfter s.inflateEnd k := by
  refine .settled (show PauseOk { s.reading with pumpingInflate := false } (.checkPause :: k)
    from ?_)
  refine ⟨hcore.push rfl, fun _ => .inr rfl, fun b hb => ?_, fun hd => ?_,
    hphase.frame (.push k rfl)⟩
  · exact ⟨(hsettled b hb).reads, (hsettled b hb).finished⟩
  · obtain ⟨b, hb, hspare⟩ := hdue hd
    exact .inr ⟨b, hb, hspare⟩

/-- A sound inflater may take the place of another. -/
theorem PauseCore.setInflater {r : Reading} {k : List Stmt} (h : PauseCore r k)
    {inflater : Option Inflater} (hinflater : InflaterSound { r with inflater := inflater }) :
    PauseCore { r with inflater := inflater } k :=
  ⟨h.notFailed, ⟨h.queue.bytes, h.queue.unready, h.queue.shut⟩,
    ⟨h.stack.top, h.stack.feeders, h.stack.pumps, h.stack.fed, h.stack.pending, h.stack.closing,
      h.stack.release, h.stack.abandoned, h.stack.late⟩, h.body, hinflater⟩

/-- Completing a body twice changes nothing. -/
theorem completed_of_done {b : Body} (hb : BodySound b) (hdone : b.messageDone = true) :
    Body.completed b = b := by
  rw [Body.completed, if_neg (hb.ended.mpr hdone), ← hdone]

/-- The last turn of the inflater: the message is inflated. -/
theorem PauseOk.inflated {r : Reading} {k : List Stmt} (h : PauseOk r (.inflateLoop :: k))
    (hcompressed : r.rxActive = true ∧ r.rxCompressed = true ∧ r.rxEndPending = true) :
    PauseCore { r with rxActive := false, rxEndPending := false, inflater := some {} }
        (.inflateEnd :: k)
      ∧ (r.body = none → Phase { r with
          rxActive := false, rxEndPending := false, inflater := some {} } (.inflateEnd :: k))
      ∧ (r.streamed = false → r.body = none)
      ∧ ∀ b, r.body = some b → Phase { r with
          rxActive := false, rxEndPending := false, inflater := some {}
          body := some (Body.completed b) } (.inflateEnd :: k) := by
  refine ⟨⟨h.notFailed, ⟨h.queue.bytes, h.queue.unready, h.queue.shut⟩, ?_, h.body, ?_⟩, ?_, ?_, ?_⟩
  · exact ⟨h.stack.top, h.stack.feeders, h.stack.pumps, h.stack.fed, h.stack.pending,
      h.stack.closing, h.stack.release, h.stack.abandoned, fun _ ha => (by cases ha)⟩
  · refine ⟨fun i hi hin => ?_, fun i hi hf => ?_, fun ha => by cases ha⟩
    · obtain rfl := Option.some.inj hi
      cases hin
    · obtain rfl := Option.some.inj hi
      cases hf
  -- without a body the message was a whole one, or is dropped
  · intro hnone
    cases h.phase with
    | whole hmode hbody hheld => exact .whole hmode hbody hheld
    | dropping hmode hdiscard hheld hactive =>
        exact .dropping hmode hdiscard hheld fun ha => by cases ha
    | between hmode hdiscard hmessage hheld hbody hactive =>
        exact absurd hcompressed.1 (Bool.eq_false_iff.mp hactive)
    | receiving hmode hdiscard hmessage hheld hactive hpending =>
        exact absurd hcompressed.2.2 (Bool.eq_false_iff.mp hpending)
    | waiting hmode hdiscard hmessage hheld hafter hshut hmid hturn b hbody =>
        cases hnone.symm.trans hbody
    | drained hmode hdiscard hover hpending hheld hfeeder hactive =>
        exact .drained hmode hdiscard hover hpending hheld hfeeder fun ha => by cases ha
  · intro hmode
    cases h.phase with
    | whole _ hbody => exact hbody
    | dropping hmode' => exact absurd hmode' (Bool.eq_false_iff.mp hmode)
    | between hmode' => exact absurd hmode' (Bool.eq_false_iff.mp hmode)
    | receiving hmode' => exact absurd hmode' (Bool.eq_false_iff.mp hmode)
    | waiting hmode' => exact absurd hmode' (Bool.eq_false_iff.mp hmode)
    | drained hmode' => exact absurd hmode' (Bool.eq_false_iff.mp hmode)
  -- a body waits for its reader, and is complete now
  · intro b hb
    cases h.phase with
    | whole hmode hbody hheld => cases hb.symm.trans hbody
    | dropping hmode hdiscard hheld hactive =>
        exact .dropping hmode hdiscard hheld fun ha => by cases ha
    | between hmode hdiscard hmessage hheld hbody hactive =>
        exact absurd hcompressed.1 (Bool.eq_false_iff.mp hactive)
    | receiving hmode hdiscard hmessage hheld hactive hpending =>
        exact absurd hcompressed.2.2 (Bool.eq_false_iff.mp hpending)
    | waiting hmode hdiscard hmessage hheld hafter hshut hmid hturn b' hbody hend hactive
        habandon =>
        obtain rfl : b = b' := Option.some.inj (hb.symm.trans hbody)
        refine .waiting hmode hdiscard hmessage hheld hafter hshut hmid hturn (Body.completed b) rfl
          (.inl rfl) (fun ha => by cases ha) fun ha => ?_
        obtain ⟨hreads, hfinished, hdone⟩ := habandon ha
        refine ⟨hreads, ?_, rfl⟩
        rw [completed_of_done (h.body b hb) hdone]
        exact hfinished
    | drained hmode hdiscard hover hpending hheld hfeeder hactive =>
        exact .drained hmode hdiscard hover hpending hheld hfeeder fun ha => by cases ha

/-- A full body has no reads waiting. -/
theorem PauseOk.spare_of_full {s : State} {k : List Stmt} (h : PauseOk s.reading k)
    (hfull : s.bodyFull = true) : Spare s.reading := by
  rw [State.bodyFull, Bool.and_eq_true, Option.any_eq_true] at hfull
  obtain ⟨-, b, hb, hfull⟩ := hfull
  simp only [Bool.and_eq_true, Bool.not_eq_true', beq_iff_eq, decide_eq_true_eq] at hfull
  obtain ⟨⟨hcancelled, hend⟩, hbytes⟩ := hfull
  refine ⟨b, hb, hcancelled, hend, ?_⟩
  by_contra hreads
  rcases (h.settled b hb).reads hreads with ⟨hq, -⟩ | hfinished
  · rw [(h.body b hb).bytes, hq] at hbytes
    exact absurd hbytes (by decide)
  · rw [Body.finished, hcancelled, Bool.false_and, Bool.or_false] at hfinished
    exact ((h.body b hb).delivered hfinished).2 hend

/-- A turn of the inflater. -/
theorem PauseInv.inflateLoop {s : State} {k : List Stmt} (c : Choice)
    (h : PauseOk s.reading (.inflateLoop :: k)) : PauseAfter (s.inflateLoop c) k := by
  obtain ⟨hcore, hsettled, hphase⟩ := h.popPump rfl
  unfold State.inflateLoop
  split
  -- the loop stops: nothing is inflating, or the buffer is full
  · rename_i hstop
    by_cases hdone : s.rx.inputDone = true
    · exact .past (.inl hdone)
    refine .next (fun h => by cases h) fun _ =>
      PauseInv.inflateEnd hcore hsettled (fun hd => h.spare_of_full ?_) hphase
    by_contra hfull
    rw [Bool.not_eq_true] at hfull hdone
    rw [hfull, Bool.or_false, Bool.not_eq_true'] at hstop
    rw [Reading.inflateDue, Bool.and_eq_true, Bool.and_eq_true] at hd
    obtain ⟨⟨hactive, hcompressed⟩, hany⟩ := hd
    obtain ⟨i, hi, -⟩ := (Option.any_eq_true _ _).mp hany
    refine Bool.eq_false_iff.mp hstop ?_
    rw [State.inflating, show s.rx.rxActive = true from hactive,
      show s.rx.rxCompressed = true from hcompressed, show s.rx.inflater = some i from hi,
      show s.cl.failed = false from h.notFailed, hdone]
    rfl
  rename_i hgo
  rw [Bool.not_eq_true, Bool.or_eq_false_iff, Bool.not_eq_false'] at hgo
  obtain ⟨hinflating, -⟩ := hgo
  simp only [State.inflating, Bool.and_eq_true] at hinflating
  obtain ⟨⟨⟨⟨hactive, hcompressed⟩, hsome⟩, -⟩, -⟩ := hinflating
  split
  · rename_i hnone
    rw [hnone] at hsome
    cases hsome
  rename_i i hi
  have hleft := Inflater.step_left c.inflate i
  have hready : s.rx.rxEndPending = true → i.finished = true := by
    intro hpending
    obtain ⟨i', hi', hfinished⟩ := h.inflater.ready hactive hcompressed
    obtain rfl : i = i' := Option.some.inj (hi.symm.trans hi')
    exact hfinished hpending
  have hended : i.finished = true → s.rx.rxEndPending = true := fun hf =>
    (h.inflater.finished i hi hf).2.2
  have hsound : ∀ i' : Inflater, i'.finished = i.finished →
      InflaterSound { s.reading with inflater := some i' } := by
    intro i' hf
    refine ⟨fun _ _ _ => ⟨hactive, hcompressed⟩, fun j hj hfj => ?_, fun _ _ => ⟨i', rfl, ?_⟩⟩
    · obtain rfl : i' = j := Option.some.inj hj
      exact ⟨hactive, hcompressed, hended (hf.symm.trans hfj)⟩
    · exact fun hpending => hf.trans (hready hpending)
  dsimp only
  generalize Inflater.step c.inflate i = left at hleft ⊢
  obtain ⟨i', step⟩ := left
  -- the four answers of the inflater
  cases step with
  | Output bytes =>
      refine PauseInv.deliverData (show PauseOk { s.reading with inflater := some i' }
        (.inflateLoop :: k) from ⟨h.toPauseCore.setInflater (hsound i' hleft), fun _ => .inr rfl,
          h.settled, fun _ => .inl rfl, h.phase.frame (SameKinds.refl _).phase⟩)
  | NeedInput =>
      obtain ⟨hinput, hf', hf⟩ := hleft
      refine .next (fun h => by cases h) fun _ => PauseInv.inflateEnd
        (show PauseCore { { s.reading with pumpingInflate := false } with inflater := some i' }
          k from
          hcore.setInflater ?_) hsettled (fun hd => ?_) (hphase.frame (SameKinds.refl k).phase)
      · obtain ⟨hl, hfin, hr⟩ := hsound i' (hf'.trans hf.symm)
        exact ⟨hl, hfin, hr⟩
      · rw [Reading.inflateDue, Bool.and_eq_true] at hd
        have hany : (i'.hasInput || s.rx.rxEndPending) = true := hd.2
        rw [Inflater.hasInput, hinput] at hany
        exact absurd (hready hany) (Bool.eq_false_iff.mp hf)
  | Done =>
      obtain ⟨rfl, hf⟩ := hleft
      obtain ⟨hcore', hnone, hmode, hbody⟩ := h.inflated ⟨hactive, hcompressed, hended hf⟩
      exact PauseInv.messageComplete hactive hcore' rfl hnone hmode hbody
  | Error =>
      exact .failing fun hfailed => absurd hfailed (Bool.eq_false_iff.mp h.notFailed)

/-! ## The message given up, the body dropped -/

/-- A piece that abandons is of no other kind. -/
theorem Stmt.isAbandon_kinds {p : Stmt} (h : p.isAbandon = true) :
    p.isTop = false ∧ p.isFeeder = false ∧ p.isMidFeed = false ∧ p.isFeedTurn = false
      ∧ p.isFinish = false ∧ p.isInput = false ∧ p.isPushClose = false ∧ p.isRelease = false
      ∧ p.isPump = false ∧ p.isLoop = false ∧ p.isResume = false := by
  cases p with
  | abandonRx => exact ⟨rfl, rfl, rfl, rfl, rfl, rfl, rfl, rfl, rfl, rfl, rfl⟩
  | abandonActiveRx => exact ⟨rfl, rfl, rfl, rfl, rfl, rfl, rfl, rfl, rfl, rfl, rfl⟩
  | _ => exact Bool.noConfusion h

/-- The body, if there is one, has its end. -/
theorem not_spare {r : Reading} (h : ∀ b, r.body = some b → b.end_ ≠ .None) : ¬ Spare r :=
  fun ⟨b, hb, _, hend, _⟩ => h b hb hend

/-- The message being received given up. -/
theorem PauseOk.abandon {r : Reading} {p : Stmt} {k : List Stmt} (h : PauseOk r (p :: k))
    (hp : p.isAbandon = true) {rxEndPending : Bool} {inflater : Option Inflater}
    (hempty : ∀ i, inflater = some i → i.hasInput = false ∧ i.finished = false) :
    PauseOk { r with rxActive := false, rxEndPending := rxEndPending, inflater := inflater } k := by
  obtain ⟨htop, hfeeder, hmid, hturn, hfinish, hinput, hclose, hrelease, hpump, hloop, hresume⟩ :=
    Stmt.isAbandon_kinds hp
  have habandoned : (p :: k).any Stmt.isAbandon = true := by
    rw [List.any_cons, hp, Bool.true_or]
  -- the body of the message given up has ended, so nothing can be delivered to it
  have hspare := not_spare (h.stack.abandoned habandoned)
  refine ⟨⟨h.notFailed, ⟨h.queue.bytes, h.queue.unready, h.queue.shut⟩, ?_, h.body, ?_⟩, ?_, ?_, ?_,
    ?_⟩
  · constructor
    · exact (any_cons_of_false htop).symm.trans h.stack.top
    · exact (countP_cons_of_false hfeeder).symm.trans h.stack.feeders
    · exact (countP_cons_of_false hpump).symm.trans h.stack.pumps
    · intro hs
      have hfed := h.stack.fed hs
      rw [fedPumps, Bool.and_eq_true] at hfed
      exact hfed.2
    · rw [← any_cons_of_false hinput]
      exact h.stack.pending
    · rw [← any_cons_of_false hclose]
      exact h.stack.closing
    · rw [← any_cons_of_false hrelease]
      exact h.stack.release
    · exact fun _ => h.stack.abandoned habandoned
    · exact fun _ ha => (by cases ha)
  · refine ⟨fun i hi hin => ?_, fun i hi hf => ?_, fun ha => by cases ha⟩
    · exact absurd hin (Bool.eq_false_iff.mp (hempty i hi).1)
    · exact absurd hf (Bool.eq_false_iff.mp (hempty i hi).2)
  -- what kept reading paused may have been the inflater, which then still has its turn to resume
  · intro hpaused
    have hk : k.any Stmt.isLoop = true → k.any Stmt.isResume = true := by
      intro hk
      obtain ⟨q, hq, hl⟩ := List.any_eq_true.mp hk
      refine List.any_eq_true.mpr ⟨q, hq, ?_⟩
      cases q with
      | inflateLoop => rfl
      | _ => cases hl
    rcases h.resumed hpaused with hhigh | hr
    · rw [Reading.high, Bool.or_eq_true] at hhigh
      rcases hhigh with hhigh | hinflate
      · exact .inl (by rw [Reading.high, hhigh, Bool.true_or])
      · rw [Bool.and_eq_true] at hinflate
        obtain ⟨hflags, hany⟩ := hinflate
        obtain ⟨i, hi, hin⟩ := (Option.any_eq_true _ _).mp hany
        refine .inr (hk ?_)
        refine (any_cons_of_false hloop).symm.trans ((h.due ?_).resolve_right hspare)
        rw [Reading.inflateDue, hflags, hi, Option.any_some, hin]
        rfl
    · exact .inr ((any_cons_of_false hresume).symm.trans hr)
  · intro b hb
    exact ⟨(h.settled b hb).reads, fun hf => (any_cons_of_false hfinish).symm.trans
      ((h.settled b hb).finished hf)⟩
  · exact fun hd => by cases hd
  · cases h.phase with
    | whole hmode hbody hheld => exact .whole hmode hbody hheld
    | dropping hmode hdiscard hheld hactive =>
        exact .dropping hmode hdiscard
          (fun hh => (any_cons_of_false hrelease).symm.trans (hheld hh)) fun ha => by cases ha
    | between hmode hdiscard hmessage hheld hbody hactive hafter hshut habandon =>
        exact absurd habandoned (Bool.eq_false_iff.mp habandon)
    | receiving hmode hdiscard hmessage hheld hactive hpending hbody hshut habandon =>
        exact absurd habandoned (Bool.eq_false_iff.mp habandon)
    | waiting hmode hdiscard hmessage hheld hafter hshut hmid' hturn' b hbody hend hactive
        habandon =>
        refine .waiting hmode hdiscard hmessage hheld hafter hshut
          ((any_cons_of_false hmid).symm.trans hmid')
          (fun ht => hturn' ((any_cons_of_false hturn).trans ht)) b hbody
          (.inl (habandon habandoned).2.2) (fun ha => by cases ha) fun _ => habandon habandoned
    | drained hmode hdiscard hover hpending hheld hfeeder' hactive =>
        exact .drained hmode hdiscard hover hpending hheld
          ((any_cons_of_false hfeeder).symm.trans hfeeder') fun ha => by cases ha

/-- After the message is abandoned the inflater holds nothing. -/
theorem abandonRx_empty (s : State) : ∀ i, s.abandonRx.rx.inflater = some i →
    i.hasInput = false ∧ i.finished = false := by
  intro i hi
  obtain ⟨_, -, rfl⟩ := Option.map_eq_some_iff.mp hi
  exact ⟨rfl, rfl⟩

/-- Abandoning the message keeps the invariant. -/
theorem PauseInv.abandonRx {s : State} {k : List Stmt} (h : PauseOk s.reading (.abandonRx :: k)) :
    PauseAfter (s.abandonRx, []) k :=
  .settled (h.abandon rfl (abandonRx_empty s))

theorem PauseInv.abandonActiveRx {s : State} {k : List Stmt}
    (h : PauseOk s.reading (.abandonActiveRx :: k)) :
    PauseAfter (if s.rx.rxActive then s.abandonRx else s, []) k := by
  split
  · exact .settled (h.abandon rfl (abandonRx_empty s))
  · rename_i hidle
    rw [Bool.not_eq_true] at hidle
    have hsame : { s.reading with
        rxActive := false, rxEndPending := s.rx.rxEndPending, inflater := s.rx.inflater }
        = s.reading := by
      rw [← hidle]
      rfl
    refine .settled (hsame ▸ h.abandon rfl fun i hi => ?_)
    refine ⟨Bool.eq_false_iff.mpr fun hin => ?_, Bool.eq_false_iff.mpr fun hf => ?_⟩
    · exact absurd (h.inflater.left i hi hin).1 (Bool.eq_false_iff.mp hidle)
    · exact absurd (h.inflater.finished i hi hf).1 (Bool.eq_false_iff.mp hidle)

/-- A light piece popped. -/
theorem PauseCore.pop {r : Reading} {p : Stmt} {k : List Stmt} (h : PauseCore r (p :: k))
    (hp : p.isLight = true) : PauseCore r k := by
  obtain ⟨hfeeder, -, -, hpump, hloop, hinput, habandon, htop, hclose, hrelease⟩ :=
    Stmt.isLight_kinds hp
  refine ⟨h.notFailed, h.queue, ?_, h.body, h.inflater⟩
  constructor
  · exact (any_cons_of_false htop).symm.trans h.stack.top
  · exact (countP_cons_of_false hfeeder).symm.trans h.stack.feeders
  · exact (countP_cons_of_false hpump).symm.trans h.stack.pumps
  · intro hs
    have hfed := h.stack.fed hs
    rw [fedPumps, Bool.and_eq_true] at hfed
    exact hfed.2
  · rw [← any_cons_of_false hinput]
    exact h.stack.pending
  · rw [← any_cons_of_false hclose]
    exact h.stack.closing
  · rw [← any_cons_of_false hrelease]
    exact h.stack.release
  · rw [← any_cons_of_false habandon]
    exact h.stack.abandoned
  · rw [← any_cons_of_false hloop]
    exact h.stack.late

theorem PhaseKinds.pop (k : List Stmt) {p : Stmt} (hp : p.isLight = true) :
    PhaseKinds (p :: k) k := by
  obtain ⟨hfeeder, hmid, hturn, -, -, -, habandon, -, -, hrelease⟩ := Stmt.isLight_kinds hp
  constructor
  · exact (any_cons_of_false hrelease).symm
  · exact (any_cons_of_false habandon).symm
  · rw [any_cons_of_false hmid]
    exact id
  · rw [any_cons_of_false hturn]
    exact id
  · rw [any_cons_of_false hfeeder]
    exact id

/-- The hold released: the input after the message is processed. -/
theorem PauseCore.released {r : Reading} {k : List Stmt} (h : PauseCore r k)
    (hsettled : ∀ b, r.body = some b → BodySettled b k)
    (hdue : r.inflateDue = true → k.any Stmt.isLoop = true ∨ Spare r)
    (hphase : Phase { r with held := false } k) :
    PauseOk { r with held := false } (.checkPause :: .processInput :: .updateInterest :: k) where
  notFailed := h.notFailed
  resumed := fun _ => .inr rfl
  queue := ⟨h.queue.bytes, h.queue.unready, h.queue.shut⟩
  stack := ⟨h.stack.top, h.stack.feeders, h.stack.pumps, h.stack.fed, fun _ => .inr (.inr rfl),
    h.stack.closing, h.stack.release, h.stack.abandoned, h.stack.late⟩
  body := h.body
  settled := fun b hb => ⟨(hsettled b hb).reads, (hsettled b hb).finished⟩
  inflater := ⟨h.inflater.left, h.inflater.finished, h.inflater.ready⟩
  due := hdue
  phase := by
    have hkinds : PhaseKinds k (.checkPause :: .processInput :: .updateInterest :: k) :=
      ⟨rfl, rfl, id, id, id⟩
    exact hphase.frame hkinds

/-- Releasing a held turn keeps the invariant. -/
theorem PauseInv.releaseNow {s : State} {k : List Stmt}
    (hkept : s.rx.held = false → PauseOk s.reading k)
    (hreleased : s.rx.held = true →
      PauseOk { s.reading with held := false }
        (.checkPause :: .processInput :: .updateInterest :: k)) :
    PauseInv s (.releaseHold :: k) := by
  refine .next (fun h => by cases h) fun c => ?_
  show PauseAfter s.releaseHold k
  rw [State.releaseHold]
  split
  · exact .settled (hreleased ‹_›)
  · exact .settled (hkept (Bool.eq_false_iff.mpr ‹_›))

/-- The piece that releases a held turn keeps the invariant. -/
theorem PauseInv.releaseHold {s : State} {k : List Stmt}
    (h : PauseOk s.reading (.releaseHold :: k)) : PauseAfter s.releaseHold k := by
  have hdiscard : s.rx.discard = true := h.stack.release rfl
  have hcore : PauseCore s.reading k := ⟨h.notFailed, h.queue, ⟨h.stack.top, h.stack.feeders,
    h.stack.pumps, h.stack.fed, h.stack.pending, h.stack.closing, fun _ => hdiscard,
    h.stack.abandoned, h.stack.late⟩, h.body, h.inflater⟩
  have hsettled : ∀ b, s.rx.body = some b → BodySettled b k := fun b hb =>
    ⟨(h.settled b hb).reads, (h.settled b hb).finished⟩
  have hphase : Phase { s.reading with held := false } k := by
    cases h.phase with
    | whole hmode hbody hheld => exact .whole hmode hbody rfl
    | dropping hmode _ hheld hactive =>
      exact .dropping hmode hdiscard (fun hh => by cases hh) hactive
    | between hmode hd => exact absurd hdiscard (Bool.eq_false_iff.mp hd)
    | receiving hmode hd => exact absurd hdiscard (Bool.eq_false_iff.mp hd)
    | waiting hmode hd => exact absurd hdiscard (Bool.eq_false_iff.mp hd)
    | drained hmode hd => exact absurd hdiscard (Bool.eq_false_iff.mp hd)
  rw [State.releaseHold]
  split
  · exact .settled (hcore.released hsettled h.due hphase)
  · rename_i hheld
    rw [Bool.not_eq_true] at hheld
    have hsame : { s.reading with held := false } = s.reading := by
      rw [← hheld]
      rfl
    exact .settled ⟨hcore, h.resumed, hsettled, h.due, hsame ▸ hphase⟩

/-- A finished body has its whole message and nothing left to read. -/
theorem finished_ended {b : Body} (hb : BodySound b) (h : Body.finished b = true) :
    b.messageDone = true ∧ b.q = [] := by
  rw [Body.finished, Bool.or_eq_true, Bool.and_eq_true] at h
  rcases h with hdelivered | ⟨hcancelled, hend⟩
  · exact ⟨hb.ended.mp (hb.delivered hdelivered).2, (hb.delivered hdelivered).1⟩
  · refine ⟨?_, hb.cancelled hcancelled⟩
    rw [Bool.or_eq_true, beq_iff_eq] at hend
    rcases hend with hdone | herror
    · exact hdone
    · refine hb.ended.mp ?_
      rw [herror]
      exact ReadEnd.noConfusion

/-- A finished body dropped. -/
theorem PauseInv.dropBody {s : State} {k : List Stmt} {b : Body}
    (h : PauseCore s.reading (.maybeFinishBody :: k)) (hb : s.rx.body = some b)
    (hfinished : Body.finished b = true)
    (hresumed : s.rd.paused = true → s.high = true ∨ k.any Stmt.isResume = true)
    (hdue : s.reading.inflateDue = true → k.any Stmt.isLoop = true ∨ Spare s.reading)
    (hphase : Phase s.reading k) :
    PauseInv { s with rx.body := none } (.releaseHold :: k) := by
  obtain ⟨hdone, hq⟩ := finished_ended (h.body b hb) hfinished
  -- the body has ended, so nothing that is due can be delivered to it
  have hended : ¬ Spare s.reading := not_spare fun b' hb' => by
    obtain rfl : b = b' := Option.some.inj (hb.symm.trans hb')
    exact (h.body b hb).ended.mpr hdone
  have hother : ∀ {p : Prop}, (∃ b', s.rx.body = some b' ∧ b'.messageDone = false) → p := by
    rintro p ⟨b', hb', hnot⟩
    obtain rfl : b = b' := Option.some.inj (hb.symm.trans hb')
    exact absurd hdone (Bool.eq_false_iff.mp hnot)
  have hpop := h.pop rfl
  have hcore : PauseCore { s.reading with body := none } k :=
    ⟨hpop.notFailed, ⟨hpop.queue.bytes, hpop.queue.unready, hpop.queue.shut⟩,
      ⟨hpop.stack.top, hpop.stack.feeders, hpop.stack.pumps, hpop.stack.fed, hpop.stack.pending,
        hpop.stack.closing, hpop.stack.release, (fun _ _ hnone => (by cases hnone)),
        fun hp ha hz => (hpop.stack.late hp ha hz).imp id fun hs => absurd hs hended⟩,
      (fun _ hnone => (by cases hnone)),
      ⟨hpop.inflater.left, hpop.inflater.finished, hpop.inflater.ready⟩⟩
  have hdue' : Reading.inflateDue { s.reading with body := none } = true →
      k.any Stmt.isLoop = true ∨ Spare { s.reading with body := none } := fun hd =>
    .inl ((hdue hd).resolve_right hended)
  refine .releaseNow
    (fun hheld => ⟨hcore, fun hp => ?_, (fun _ hnone => (by cases hnone)), hdue', ?_⟩)
    fun hheld => hcore.released (fun _ hnone => (by cases hnone)) hdue' ?_
  -- its queue is empty, so it was not what kept reading paused
  · refine (hresumed hp).imp (fun hhigh => ?_) id
    have hbytes : b.qBytes = 0 := by
      rw [(h.body b hb).bytes, hq]
      rfl
    rw [State.high, hb, Option.any_some, hbytes] at hhigh
    exact hhigh
  · cases hphase with
    | whole hmode hbody => cases hb.symm.trans hbody
    | dropping hmode hdiscard hh hactive =>
        exact .dropping hmode hdiscard hh fun ha => (hactive ha).imp hother id
    | between hmode hdiscard hmessage hh hbody => cases hb.symm.trans hbody
    | receiving hmode hdiscard hmessage hh hactive hpending hbody => exact hother hbody
    | waiting hmode hdiscard hmessage hh => exact absurd hh (Bool.eq_false_iff.mp hheld)
    | drained hmode hdiscard hover hpending hh hfeeder hactive =>
        exact .drained hmode hdiscard hover hpending hh hfeeder fun ha => (hactive ha).imp hother id
  -- the message held the decoder: with its body gone the receiver is between messages
  · cases hphase with
    | whole hmode hbody => cases hb.symm.trans hbody
    | dropping hmode hdiscard hh hactive =>
        exact .dropping hmode hdiscard (fun hf => by cases hf) fun ha => (hactive ha).imp hother id
    | between hmode hdiscard hmessage hh hbody => cases hb.symm.trans hbody
    | receiving hmode hdiscard hmessage hh hactive hpending hbody => exact hother hbody
    | waiting hmode hdiscard hmessage hh hafter hshut hmid hturn b' hbody hend hactive habandon =>
        obtain rfl : b = b' := Option.some.inj (hb.symm.trans hbody)
        have hnoAbandon : k.any Stmt.isAbandon = false := Bool.eq_false_iff.mpr fun ha =>
          absurd hfinished (Bool.eq_false_iff.mp (habandon ha).2.1)
        have hidle : s.rx.rxActive = false := Bool.eq_false_iff.mpr fun ha => by
          rcases hactive ha with hnot | ha'
          · exact absurd hdone (Bool.eq_false_iff.mp hnot)
          · exact absurd ha' (Bool.eq_false_iff.mp hnoAbandon)
        exact .between hmode hdiscard hmessage rfl rfl hidle hafter hshut hnoAbandon
    | drained hmode hdiscard hover hpending hh =>
        exact absurd hheld (Bool.eq_false_iff.mp hh)

/-- Finishing a body keeps the invariant. -/
theorem PauseInv.maybeFinishBody {s : State} {k : List Stmt}
    (h : PauseOk s.reading (.maybeFinishBody :: k)) : PauseAfter s.maybeFinishBody k := by
  have hpop : (∀ b, s.rx.body = some b → Body.finished b = false) → PauseOk s.reading k :=
    fun hnot => ⟨h.toPauseCore.pop rfl, h.resumed,
      fun b hb => ⟨(h.settled b hb).reads, fun hf => absurd hf (Bool.eq_false_iff.mp (hnot b hb))⟩,
      h.due, h.phase.frame (.pop k rfl)⟩
  rw [State.maybeFinishBody]
  split
  · rename_i hnone
    exact .settled (hpop fun b hb => by cases hnone.symm.trans hb)
  · rename_i b hb
    split
    · rename_i hfinished
      exact PauseInv.dropBody h.toPauseCore hb hfinished h.resumed h.due
        (h.phase.frame (.pop k rfl))
    · rename_i hopen
      refine .settled (hpop fun b' hb' => ?_)
      obtain rfl : b = b' := Option.some.inj (hb.symm.trans hb')
      exact Bool.eq_false_iff.mpr hopen

/-! ## Feeding the decoder -/

/-- A piece that feeds the decoder is of no other kind. -/
theorem Stmt.isFeeder_kinds {p : Stmt} (h : p.isFeeder = true) :
    p.isTop = false ∧ p.isPump = false ∧ p.isLoop = false ∧ p.isFinish = false
      ∧ p.isInput = false ∧ p.isPushClose = false ∧ p.isRelease = false ∧ p.isAbandon = false
      ∧ p.isResume = false := by
  cases p with
  | processLoop => exact ⟨rfl, rfl, rfl, rfl, rfl, rfl, rfl, rfl, rfl⟩
  | feedTurn caller data => exact ⟨rfl, rfl, rfl, rfl, rfl, rfl, rfl, rfl, rfl⟩
  | feedPayload caller data => exact ⟨rfl, rfl, rfl, rfl, rfl, rfl, rfl, rfl, rfl⟩
  | feedAfterChunk caller data => exact ⟨rfl, rfl, rfl, rfl, rfl, rfl, rfl, rfl, rfl⟩
  | _ => exact Bool.noConfusion h

/-- Only one piece feeds the decoder. -/
theorem StackSound.only_feeder {r : Reading} {p : Stmt} {k : List Stmt}
    (h : StackSound r (p :: k)) (hp : p.isFeeder = true) :
    r.processing = true ∧ k.any Stmt.isFeeder = false := by
  have hfeeders := h.feeders
  rw [List.countP_cons_of_pos hp] at hfeeders
  cases hr : r.processing with
  | true =>
      rw [hr, if_pos rfl] at hfeeders
      refine ⟨rfl, List.any_eq_false.mpr fun q hq => ?_⟩
      exact List.countP_eq_zero.mp (Nat.succ.inj hfeeders) q hq
  | false =>
      rw [hr] at hfeeders
      cases hfeeders

/-- Where nothing feeds the decoder no part of a feed is on the stack. -/
theorem no_feed {k : List Stmt} (h : k.any Stmt.isFeeder = false) :
    k.any Stmt.isMidFeed = false ∧ k.any Stmt.isFeedTurn = false
      ∧ k.countP Stmt.isFeeder = 0 := by
  rw [List.any_eq_false] at h
  refine ⟨List.any_eq_false.mpr fun p hp hm => ?_, List.any_eq_false.mpr fun p hp ht => ?_,
    List.countP_eq_zero.mpr h⟩
  · cases p <;> first | exact h _ hp rfl | exact Bool.noConfusion hm
  · cases p <;> first | exact h _ hp rfl | exact Bool.noConfusion ht

/-- Without a feeder on the stack, a message that is not streamed is not being inflated. -/
theorem no_pump {k : List Stmt} (h : k.any Stmt.isFeeder = false) (hfed : fedPumps k = true) :
    k.countP Stmt.isPump = 0 := by
  induction k with
  | nil => rfl
  | cons p k ih =>
      rw [List.any_cons, Bool.or_eq_false_iff] at h
      rw [fedPumps, h.2, Bool.or_false, Bool.and_eq_true, Bool.not_eq_true'] at hfed
      rw [countP_cons_of_false hfed.1]
      exact ih h.2 hfed.2

/-- Another piece that feeds the decoder. -/
theorem PauseOk.feeder {r : Reading} {p q : Stmt} {k : List Stmt} (h : PauseOk r (p :: k))
    (hp : p.isFeeder = true) (hq : q.isFeeder = true) {stopped : Bool} (pendingIn : Bytes)
    (hwait : r.discard = false → r.held = true →
      q.isMidFeed = false ∧ (q.isFeedTurn = true → stopped = true)) :
    PauseOk { r with stopped := stopped, pendingIn := pendingIn } (q :: k) := by
  obtain ⟨hprocessing, hnone⟩ := h.stack.only_feeder hp
  obtain ⟨hmid, hturn, hcount⟩ := no_feed hnone
  obtain ⟨htop, hpump, hloop, hfinish, hinput, hclose, hrelease, habandon, hresume⟩ :=
    Stmt.isFeeder_kinds hp
  obtain ⟨htop', hpump', hloop', hfinish', hinput', hclose', hrelease', habandon', hresume'⟩ :=
    Stmt.isFeeder_kinds hq
  -- one feeder stands in the place of another: every count over the stack stays
  have hany : ∀ {f : Stmt → Bool}, f p = false → f q = false → (q :: k).any f = (p :: k).any f :=
    fun hp hq => (any_cons_of_false hq).trans (any_cons_of_false hp).symm
  have hfed : fedPumps (q :: k) = fedPumps (p :: k) := by
    rw [fedPumps, fedPumps, hpump, hpump']
  refine ⟨⟨h.notFailed, ⟨h.queue.bytes, h.queue.unready, h.queue.shut⟩, ?_, h.body,
    ⟨h.inflater.left, h.inflater.finished, h.inflater.ready⟩⟩, ?_, fun b hb => ?_, fun hd => ?_, ?_⟩
  · constructor
    · exact (hany htop htop').trans h.stack.top
    · show _ = if r.processing = true then 1 else 0
      rw [List.countP_cons_of_pos hq, hcount, hprocessing]
      rfl
    · exact ((countP_cons_of_false hpump').trans (countP_cons_of_false hpump).symm).trans
        h.stack.pumps
    · exact fun hs => hfed.trans (h.stack.fed hs)
    · exact fun _ => .inr (.inl hprocessing)
    · rw [hany hclose hclose']
      exact h.stack.closing
    · rw [hany hrelease hrelease']
      exact h.stack.release
    · rw [hany habandon habandon']
      exact h.stack.abandoned
    · rw [hany hloop hloop']
      exact h.stack.late
  · rw [hany hresume hresume']
    exact h.resumed
  · exact ⟨(h.settled b hb).reads, fun hf => (hany hfinish hfinish').trans
      ((h.settled b hb).finished hf)⟩
  · rw [hany hloop hloop']
    exact h.due hd
  · have hrel := hany hrelease hrelease'
    have haba := hany habandon habandon'
    -- only a message that waits looks at what the feeder is about to do
    cases h.phase with
    | whole hmode hbody hheld => exact .whole hmode hbody hheld
    | dropping hmode hdiscard hheld hactive =>
        exact .dropping hmode hdiscard (fun hh => hrel.trans (hheld hh)) fun ha => by
          rw [haba]
          exact hactive ha
    | between hmode hdiscard hmessage hheld hbody hactive hafter hshut hno =>
        exact .between hmode hdiscard hmessage hheld hbody hactive hafter hshut (haba.trans hno)
    | receiving hmode hdiscard hmessage hheld hactive hpending hbody hshut hno =>
        exact .receiving hmode hdiscard hmessage hheld hactive hpending hbody hshut (haba.trans hno)
    | waiting hmode hdiscard hmessage hheld hafter hshut hmid' hturn' b hbody hend hactive hno =>
        obtain ⟨hqmid, hqturn⟩ := hwait hdiscard hheld
        refine .waiting hmode hdiscard hmessage hheld hafter hshut
          ((any_cons_of_false hqmid).trans hmid) (fun ht => hqturn ?_) b hbody hend ?_ ?_
        · rw [List.any_cons, hturn, Bool.or_false] at ht
          exact ht
        · rw [haba]
          exact hactive
        · rw [haba]
          exact hno
    | drained hmode hdiscard hover hpending hheld hfeeder =>
        rw [List.any_cons, hp] at hfeeder
        cases hfeeder

/-- The decoder no longer fed. -/
theorem PauseOk.popFeeder {r : Reading} {p : Stmt} {k : List Stmt} (h : PauseOk r (p :: k))
    (hp : p.isFeeder = true) (hpending : r.pendingIn ≠ [] → r.held = true) :
    PauseOk { r with processing := false } k := by
  obtain ⟨-, hnone⟩ := h.stack.only_feeder hp
  obtain ⟨hmid, hturn, hcount⟩ := no_feed hnone
  obtain ⟨htop, hpump, hloop, hfinish, hinput, hclose, hrelease, habandon, hresume⟩ :=
    Stmt.isFeeder_kinds hp
  refine ⟨⟨h.notFailed, ⟨h.queue.bytes, h.queue.unready, h.queue.shut⟩, ?_, h.body,
    ⟨h.inflater.left, h.inflater.finished, h.inflater.ready⟩⟩, ?_, fun b hb => ?_, fun hd => ?_, ?_⟩
  · constructor
    · exact (any_cons_of_false htop).symm.trans h.stack.top
    · exact hcount
    · exact (countP_cons_of_false hpump).symm.trans h.stack.pumps
    · intro hs
      have hfed := h.stack.fed hs
      rw [fedPumps, Bool.and_eq_true] at hfed
      exact hfed.2
    · exact fun hne => .inl (hpending hne)
    · rw [← any_cons_of_false hclose]
      exact h.stack.closing
    · rw [← any_cons_of_false hrelease]
      exact h.stack.release
    · rw [← any_cons_of_false habandon]
      exact h.stack.abandoned
    · rw [← any_cons_of_false hloop]
      exact h.stack.late
  · rw [← any_cons_of_false hresume]
    exact h.resumed
  · exact ⟨(h.settled b hb).reads, fun hf => (any_cons_of_false hfinish).symm.trans
      ((h.settled b hb).finished hf)⟩
  · rw [← any_cons_of_false hloop]
    exact h.due hd
  · refine h.phase.frame ⟨(any_cons_of_false hrelease).symm, (any_cons_of_false habandon).symm,
      fun _ => hmid, fun ht => ?_, fun _ => hnone⟩
    exact absurd ht (Bool.eq_false_iff.mp hturn)

/-- The loop of `processInput` left: nothing more may be fed. -/
theorem PauseInv.processStop {s : State} {k : List Stmt}
    (h : PauseOk { s.reading with processing := false } k)
    (hstop : s.rx.held = true ∨ s.rx.pendingIn = []) : PauseAfter s.processLoop k := by
  by_cases hdone : s.rx.inputDone = true
  · refine .past (.inl ?_)
    rw [State.processLoop]
    split <;> exact hdone
  rw [Bool.not_eq_true] at hdone
  have hloop : (!s.rx.inputDone && !s.decoderFailed && !s.rx.held && !s.rx.pendingIn.isEmpty)
      = false := by
    rcases hstop with hheld | hnil
    · rw [hheld, Bool.not_true, Bool.and_false, Bool.false_and]
    · rw [hnil, List.isEmpty_nil, Bool.not_true, Bool.and_false]
  rw [State.processLoop, if_neg (Bool.eq_false_iff.mp hloop), hdone, Bool.false_or]
  cases hfailed : s.decoderFailed with
  | true =>
      rw [show s.cl.failed = false from h.notFailed]
      exact .failing fun hf => absurd hf (Bool.eq_false_iff.mp h.notFailed)
  | false => exact .settled h

/-- The decoder failed: so does the connection. -/
theorem PauseInv.processFailed {s : State} {k : List Stmt} (hnotFailed : s.cl.failed = false)
    (hfailed : s.decoderFailed = true) : PauseAfter s.processLoop k := by
  rw [State.processLoop, hfailed, Bool.not_true, Bool.and_false, Bool.false_and, Bool.false_and,
    if_neg Bool.false_ne_true, hnotFailed]
  exact .failing fun hf => absurd hf (Bool.eq_false_iff.mp hnotFailed)

/-- The loop of `processInput`. -/
theorem PauseInv.processLoop {s : State} {k : List Stmt}
    (h : PauseOk s.reading (.processLoop :: k)) : PauseAfter s.processLoop k := by
  by_cases hfailed : s.decoderFailed = true
  · exact PauseInv.processFailed h.notFailed hfailed
  by_cases hheld : s.rx.held = true
  · exact PauseInv.processStop (h.popFeeder rfl fun _ => hheld) (.inl hheld)
  by_cases hnil : s.rx.pendingIn = []
  · exact PauseInv.processStop (h.popFeeder rfl fun hne => absurd hnil hne) (.inr hnil)
  rw [State.processLoop]
  split
  · refine .settled (show PauseOk { s.reading with stopped := false, pendingIn := [] }
      (.feedTurn .processInput s.rx.pendingIn :: k) from h.feeder rfl rfl [] fun _ hh => ?_)
    exact absurd hh hheld
  · rename_i hstop
    have hdone : s.rx.inputDone = true := by
      by_contra hdone
      rw [Bool.not_eq_true] at hdone hfailed hheld
      have hne : s.rx.pendingIn.isEmpty = false := Bool.eq_false_iff.mpr fun he =>
        hnil (List.isEmpty_iff.mp he)
      rw [hdone, hfailed, hheld, hne] at hstop
      exact hstop rfl
    exact .past (.inl hdone)

/-- What follows `decoder_.feed`. -/
theorem PauseInv.afterFeed {s : State} {p : Stmt} {k : List Stmt} (h : PauseOk s.reading (p :: k))
    (hp : p.isFeeder = true) (caller : FeedCaller) (rest : Bytes) :
    PauseAfter (s.afterFeed caller rest) k := by
  have hprocessing : s.rx.processing = true := (h.stack.only_feeder hp).1
  have hloop : ∀ pendingIn : Bytes, PauseOk { s.reading with pendingIn := pendingIn }
      (.processLoop :: k) := fun pendingIn =>
    h.feeder hp rfl pendingIn fun _ _ => ⟨rfl, fun ht => by cases ht⟩
  unfold State.afterFeed
  extract_lets pendingIn
  clear_value pendingIn
  cases caller with
  | processInput =>
      refine PauseInv.next (fun h => by cases h) fun c => ?_
      exact PauseInv.processLoop (s := { s with rx.pendingIn := pendingIn }) (hloop pendingIn)
  | portData =>
      -- `processInput` finds `processing_` false and sets it again.
      refine PauseInv.next (fun h => by cases h) fun c =>
        PauseInv.next (fun h => by cases h) fun c => ?_
      refine PauseInv.processLoop (s := { s with rx.pendingIn := pendingIn, rx.processing := true })
        ?_
      have hsame : State.reading { s with rx.pendingIn := pendingIn, rx.processing := true }
          = { s.reading with pendingIn := pendingIn } := by
        rw [← hprocessing]
        rfl
      rw [hsame]
      exact hloop pendingIn

/-- What follows `decoder_.feed` once the decoder failed. -/
theorem PauseInv.afterFailedFeed {s : State} (k : List Stmt) (hnotFailed : s.cl.failed = false)
    (hfailed : s.decoderFailed = true) (caller : FeedCaller) (rest : Bytes) :
    PauseAfter (s.afterFeed caller rest) k := by
  unfold State.afterFeed
  extract_lets pendingIn
  clear_value pendingIn
  cases caller with
  | processInput =>
      refine PauseInv.next (fun h => by cases h) fun c => ?_
      exact PauseInv.processFailed (s := { s with rx.pendingIn := pendingIn }) hnotFailed hfailed
  | portData =>
      refine PauseInv.next (fun h => by cases h) fun c =>
        PauseInv.next (fun h => by cases h) fun c => ?_
      exact PauseInv.processFailed
        (s := { s with rx.pendingIn := pendingIn, rx.processing := true })
        hnotFailed hfailed

/-- The decoder about to be fed. -/
theorem PauseOk.startFeed {r : Reading} {q : Stmt} {k : List Stmt}
    (h : PauseOk { r with pendingIn := [] } k) (hprocessing : r.processing = false)
    (hq : q.isFeeder = true) {stopped : Bool} (pendingIn : Bytes)
    (hphase : Phase r k) (hheld : r.held = false)
    (hopen : r.inputOver = true → r.pendingIn ≠ []) :
    PauseOk { r with processing := true, stopped := stopped, pendingIn := pendingIn } (q :: k) := by
  obtain ⟨htop, hpump, hloop, hfinish, hinput, hclose, hrelease, habandon, hresume⟩ :=
    Stmt.isFeeder_kinds hq
  have hcount : k.countP Stmt.isFeeder = 0 := by
    have hfeeders := h.stack.feeders
    rw [show ({ r with pendingIn := [] } : Reading).processing = false from hprocessing] at hfeeders
    exact hfeeders
  refine ⟨⟨h.notFailed, ⟨h.queue.bytes, h.queue.unready, h.queue.shut⟩, ?_, h.body,
    ⟨h.inflater.left, h.inflater.finished, h.inflater.ready⟩⟩, ?_, fun b hb => ?_, fun hd => ?_, ?_⟩
  · constructor
    · exact (any_cons_of_false htop).trans h.stack.top
    · rw [List.countP_cons_of_pos hq, hcount]
      rfl
    · exact (countP_cons_of_false hpump).trans h.stack.pumps
    · intro hs
      rw [fedPumps, hpump, Bool.not_false, Bool.true_or, Bool.true_and]
      exact h.stack.fed hs
    · exact fun _ => .inr (.inl rfl)
    · rw [any_cons_of_false hclose]
      exact h.stack.closing
    · rw [any_cons_of_false hrelease]
      exact h.stack.release
    · rw [any_cons_of_false habandon]
      exact h.stack.abandoned
    · rw [any_cons_of_false hloop]
      exact h.stack.late
  · rw [any_cons_of_false hresume]
    exact h.resumed
  · exact ⟨(h.settled b hb).reads, fun hf => (any_cons_of_false hfinish).trans
      ((h.settled b hb).finished hf)⟩
  · rw [any_cons_of_false hloop]
    exact h.due hd
  -- nothing is held, so the decoder is free to be fed
  · have haba : (q :: k).any Stmt.isAbandon = k.any Stmt.isAbandon := any_cons_of_false habandon
    cases hphase with
    | whole hmode hbody hh => exact .whole hmode hbody hh
    | dropping hmode hdiscard hh hactive =>
        exact .dropping hmode hdiscard (fun hh' => (any_cons_of_false hrelease).trans (hh hh'))
          fun ha => by
            rw [haba]
            exact hactive ha
    | between hmode hdiscard hmessage hh hbody hactive hafter hshut hno =>
        exact .between hmode hdiscard hmessage hh hbody hactive hafter hshut (haba.trans hno)
    | receiving hmode hdiscard hmessage hh hactive hpending hbody hshut hno =>
        exact .receiving hmode hdiscard hmessage hh hactive hpending hbody hshut (haba.trans hno)
    | waiting hmode hdiscard hmessage hh => exact absurd hh (Bool.eq_false_iff.mp hheld)
    | drained hmode hdiscard hover hpending => exact absurd hpending (hopen hover)

/-- `processInput` run. -/
theorem PauseInv.processInput {s : State} {k : List Stmt}
    (h : PauseOk s.reading (.processInput :: k)) : PauseAfter s.processInput k := by
  have hkinds : PhaseKinds (.processInput :: k) k := ⟨rfl, rfl, id, id, id⟩
  have hpop : ∀ pendingIn : Bytes, (pendingIn ≠ [] → s.rx.held = true ∨ s.rx.processing = true) →
      Phase { s.reading with pendingIn := pendingIn } k →
      PauseOk { s.reading with pendingIn := pendingIn } k := by
    intro pendingIn hpending hphase
    refine ⟨⟨h.notFailed, ⟨h.queue.bytes, h.queue.unready, h.queue.shut⟩, ?_, h.body,
      ⟨h.inflater.left, h.inflater.finished, h.inflater.ready⟩⟩, h.resumed, fun b hb => ?_, h.due,
        hphase⟩
    · exact ⟨h.stack.top, h.stack.feeders, h.stack.pumps, h.stack.fed,
        fun hne => (hpending hne).imp id .inl, h.stack.closing, h.stack.release, h.stack.abandoned,
        h.stack.late⟩
    · exact ⟨(h.settled b hb).reads, (h.settled b hb).finished⟩
  have hphase : Phase s.reading k := h.phase.frame hkinds
  rw [State.processInput]
  split
  · rename_i hprocessing
    exact .settled (hpop s.rx.pendingIn (fun _ => .inr hprocessing) hphase)
  · rename_i hidle
    rw [Bool.not_eq_true] at hidle
    refine .next (fun h => by cases h) fun c => ?_
    -- Held input, or none, stays where it is.
    by_cases hstop : s.rx.held = true ∨ s.rx.pendingIn = []
    · refine PauseInv.processStop (s := { s with rx.processing := true }) ?_ hstop
      have hsame : { s.reading with processing := false } = s.reading := by
        rw [← hidle]
        rfl
      show PauseOk { s.reading with processing := false } k
      rw [hsame]
      refine hpop s.rx.pendingIn (fun hne => .inl ?_) hphase
      exact hstop.resolve_right hne
    · rw [not_or, Bool.not_eq_true] at hstop
      refine PauseInv.processLoop (s := { s with rx.processing := true }) ?_
      refine PauseOk.startFeed (hpop [] (fun hne => absurd rfl hne) ?_)
        hidle rfl s.rx.pendingIn hphase
        hstop.1 fun _ => hstop.2
      cases hphase with
      | whole hmode hbody hh => exact .whole hmode hbody hh
      | dropping hmode hdiscard hh hactive => exact .dropping hmode hdiscard hh hactive
      | between hmode hdiscard hmessage hh hbody hactive hafter hshut hno =>
          exact .between hmode hdiscard hmessage hh hbody hactive hafter hshut hno
      | receiving hmode hdiscard hmessage hh hactive hpending hbody hshut hno =>
          exact .receiving hmode hdiscard hmessage hh hactive hpending hbody hshut hno
      | waiting hmode hdiscard hmessage hh => exact absurd hh (Bool.eq_false_iff.mp hstop.1)
      | drained hmode hdiscard hover hpending => exact absurd hpending hstop.2

/-- The end of `pumpInflate` on top of the stack. -/
theorem PauseInv.inflateEndOk {s : State} {k : List Stmt}
    (h : PauseOk s.reading (.inflateEnd :: k)) : PauseAfter s.inflateEnd k := by
  obtain ⟨hcore, hsettled, hphase⟩ := h.popPump rfl
  refine PauseInv.inflateEnd hcore hsettled (fun hd => (h.due hd).resolve_left ?_) hphase
  rw [any_cons_of_false rfl, no_loop (h.stack.only_pump rfl).2]
  exact Bool.false_ne_true

/-! ## The turns of `WsDecoder::feed` -/

/-- A message waits to be released only between frames. -/
theorem Phase.not_held {r : Reading} {p : Stmt} {k : List Stmt} (h : Phase r (p :: k))
    (hp : p.isMidFeed = true ∨ p.isFeedTurn = true ∧ r.stopped = false)
    (hdiscard : r.discard = false) : r.held = false := by
  cases h with
  | whole hmode hbody hheld => exact hheld
  | dropping hmode hd => exact absurd hd (Bool.eq_false_iff.mp hdiscard)
  | between hmode hd hmessage hheld => exact hheld
  | receiving hmode hd hmessage hheld => exact hheld
  | waiting hmode hd hmessage hheld hafter hshut hmid hturn =>
      rw [List.any_cons, Bool.or_eq_false_iff] at hmid
      rw [List.any_cons] at hturn
      rcases hp with hp | ⟨hp, hstopped⟩
      · exact absurd hp (Bool.eq_false_iff.mp hmid.1)
      · rw [hp, Bool.true_or] at hturn
        exact absurd (hturn rfl) (Bool.eq_false_iff.mp hstopped)
  | drained hmode hd hover hpending hheld => exact hheld

/-- With a feeder on the stack, a message begun or going on changes the phase only between
    two messages. -/
theorem Phase.setMessage {r : Reading} {p : Stmt} {k : List Stmt} (h : Phase r (p :: k))
    (hp : p.isFeeder = true) (hheld : r.discard = false → r.held = false) {m : Bool}
    (hbetween : r.streamed = true → r.discard = false → m = r.inMessage) :
    Phase { r with inMessage := m } (p :: k) := by
  cases h with
  | whole hmode hbody hh => exact .whole hmode hbody hh
  | dropping hmode hd hh hactive => exact .dropping hmode hd hh hactive
  | between hmode hd hmessage hh hbody hactive hafter hshut hno =>
      exact .between hmode hd ((hbetween hmode hd).trans hmessage) hh hbody hactive hafter hshut hno
  | receiving hmode hd hmessage hh hactive hpending hbody hshut hno =>
      exact .receiving hmode hd ((hbetween hmode hd).trans hmessage) hh hactive hpending hbody hshut
        hno
  | waiting hmode hd hmessage hh => exact absurd hh (Bool.eq_false_iff.mp (hheld hd))
  | drained hmode hd hover hpending hh hfeeder =>
      rw [List.any_cons, hp] at hfeeder
      cases hfeeder

theorem fail_failCode_ne {d : WsDecoder} {code : Nat} {text : String} (hcode : code ≠ 0) :
    (d.fail code text).failCode ≠ 0 := by
  rw [WsDecoder.fail]
  split
  · exact hcode
  · assumption

/-- A frame whose header passed: a control frame leaves the message in progress as it is,
    a data frame is in one. -/
def Started (d d' : WsDecoder) : Prop :=
  d'.failCode = 0 → (d'.frameIsControl = true ∧ d'.inMessage = d.inMessage)
    ∨ (d'.frameIsControl = false ∧ d'.inMessage = true)

/-- What the start of a message sets. -/
theorem openMessage_spec (d : WsDecoder) (rsv1 : Bool) :
    (WsFrame.openMessage d rsv1).frameIsControl = d.frameIsControl
      ∧ ((WsFrame.openMessage d rsv1).inMessage = true
        ∨ d.opcode = WsFrame.kOpContinuation
          ∧ (WsFrame.openMessage d rsv1).inMessage = d.inMessage) := by
  rw [WsFrame.openMessage]
  split
  · exact ⟨rfl, .inr ⟨‹_›, rfl⟩⟩
  · exact ⟨rfl, .inl rfl⟩

/-- A frame that starts without a failure is a control frame, or a data frame in a message. -/
theorem startFrame_started (cfg : WsFrame.Config) (d : WsDecoder) :
    Started d (WsFrame.startFrame cfg d) := by
  have hfails : ∀ {d' : WsDecoder} {code : Nat} {text : String}, code ≠ 0 →
      Started d (d'.fail code text) := fun hcode hf => absurd hf (fail_failCode_ne hcode)
  unfold WsFrame.startFrame
  extract_lets b0 b1 len7 ext len masked key opcode fin rsv1 d₁
  split
  · exact hfails (by decide)
  · split
    · exact hfails (by decide)
    · rename_i hmessage
      split
      · rename_i hcontrol
        exact fun _ => .inl ⟨decide_eq_true hcontrol, rfl⟩
      · rename_i hdata
        split
        · exact hfails (by decide)
        · obtain ⟨hcontrol, hin⟩ := openMessage_spec
            { d₁ with frameIsControl := decide (0x8 ≤ opcode) } rsv1
          unfold WsFrame.startPayload
          extract_lets size
          split
          · exact hfails (by decide)
          · refine fun _ => .inr ⟨hcontrol.trans (decide_eq_false hdata), ?_⟩
            rcases hin with hin | ⟨hcontinuation, hin⟩
            · exact hin
            · refine hin.trans ?_
              rw [WsFrame.messageError, if_neg hdata, if_pos hcontinuation] at hmessage
              split at hmessage
              · cases hmessage
              · rename_i hopen
                rw [Bool.not_eq_true, Bool.not_eq_false'] at hopen
                exact hopen

theorem takeChunk_inMessage (cfg : WsFrame.Config) (d : WsDecoder) (chunk : Bytes) :
    (WsFrame.takeChunk cfg d chunk).1.inMessage = d.inMessage := by
  unfold WsFrame.takeChunk
  dsimp only
  split
  · show (WsDecoder.fail _ _ _).inMessage = _
    rw [WsDecoder.fail]
    split <;> rfl
  · rfl

/-- The callback of a chunk, if there is one. -/
theorem takeChunk_events (cfg : WsFrame.Config) (d : WsDecoder) (chunk : Bytes) :
    (WsFrame.takeChunk cfg d chunk).2 = []
      ∨ ∃ data, (WsFrame.takeChunk cfg d chunk).2 = [.onDataChunk data] := by
  unfold WsFrame.takeChunk
  dsimp only
  split
  · exact .inl rfl
  · dsimp only
    split
    · exact .inr ⟨_, rfl⟩
    · exact .inl rfl

/-- The callback at the end of a frame, if there is one, and the message in progress. -/
inductive FrameEnd (cfg : WsFrame.Config) (d : WsDecoder) : WsDecoder × List Event → Prop where
  | control {d' : WsDecoder} (opcode : Nat) (payload : Bytes) (h : d'.inMessage = d.inMessage) :
      FrameEnd cfg d (d', [.onControl opcode payload])
  | fragment {d' : WsDecoder} (h : d'.inMessage = d.inMessage) : FrameEnd cfg d (d', [])
  | dropped {d' : WsDecoder} (h : d'.inMessage = false) (hdiscard : cfg.discard = true) :
      FrameEnd cfg d (d', [])
  | raw {d' : WsDecoder} (h : d'.inMessage = false) (hdiscard : cfg.discard = false) :
      FrameEnd cfg d (d', [.onDataEnd])
  | failed {d' : WsDecoder} (h : d'.failCode ≠ 0) : FrameEnd cfg d (d', [])
  | whole {d' : WsDecoder} (h : d'.inMessage = false) (hraw : cfg.raw = false) (opcode : Nat)
      (payload : Bytes) : FrameEnd cfg d (d', [.onMessage opcode payload])

/-- What the end of a frame leaves of the message. -/
theorem completeFrame_end (cfg : WsFrame.Config) (d : WsDecoder) :
    FrameEnd cfg d (WsFrame.completeFrame cfg d) := by
  unfold WsFrame.completeFrame
  extract_lets d₁
  split
  · exact .control _ _ rfl
  split
  · exact .fragment rfl
  split
  · exact .dropped rfl ‹_›
  rename_i hdiscard
  split
  · exact .raw rfl (Bool.eq_false_iff.mpr hdiscard)
  rename_i hraw
  split
  · exact .failed (fail_failCode_ne (by decide))
  · exact .whole rfl (Bool.eq_false_iff.mpr hraw) _ _

/-- The end of a frame. -/
theorem PauseInv.completeFrame {s : State} {p : Stmt} {k : List Stmt}
    (h : PauseOk s.reading (p :: k)) (hp : p.isFeeder = true)
    (hheld : s.rx.discard = false → s.rx.held = false) (caller : FeedCaller) (data : Bytes) :
    PauseAfter (s.completeFrame caller data) k := by
  have hturn : PauseOk s.reading (.feedTurn caller data :: k) :=
    h.feeder hp rfl s.rx.pendingIn fun hd hh => absurd hh (Bool.eq_false_iff.mp (hheld hd))
  have hmid : k.any Stmt.isMidFeed = false := (no_feed (h.stack.only_feeder hp).2).1
  unfold State.completeFrame
  extract_lets r
  have hend : FrameEnd s.decoderConfig s.rx.decoder r := completeFrame_end _ _
  clear_value r
  have hsame : ∀ {m : Bool}, m = s.rx.decoder.inMessage →
      PauseOk { s.reading with inMessage := m } (.feedTurn caller data :: k) := by
    intro m hm
    subst hm
    exact hturn
  cases hend with
  | control opcode payload hm => exact PauseInv.onControl (hsame hm)
  | fragment hm => exact .settled (hsame hm)
  | @dropped d' hm hdiscard =>
      refine .settled (show PauseOk { s.reading with inMessage := d'.inMessage } _ from
        PauseOk.setMessage hturn ?_)
      exact hturn.phase.setMessage rfl hheld fun _ hd => absurd hdiscard (Bool.eq_false_iff.mp hd)
  | @raw d' hm hdiscard =>
      refine PauseInv.onDataEnd (s := { s with rx.decoder := d' }) (m := s.rx.decoder.inMessage)
        hturn hm (fun _ => hdiscard) (hheld hdiscard) rfl ?_
      show (Stmt.feedTurn caller data :: k).any Stmt.isMidFeed = false
      exact (any_cons_of_false rfl).trans hmid
  | @failed d' hf =>
      refine PauseInv.next (fun h => by cases h) fun c => ?_
      have hfailed : State.decoderFailed { s with rx.decoder := d' } = true := by
        rw [State.decoderFailed, bne_iff_ne]
        exact hf
      show PauseAfter (State.feedTurn { s with rx.decoder := d' } caller data) k
      rw [State.feedTurn, hfailed, Bool.true_or, if_pos rfl]
      exact PauseInv.afterFailedFeed (s := { s with rx.decoder := d' }) k h.notFailed hfailed caller
        data
  | @whole d' hm hraw opcode payload =>
      have hmode : s.cfg.streamed = false := (Bool.or_eq_false_iff.mp hraw).1
      refine PauseInv.onMessage (s := { s with rx.decoder := d' })
        (show PauseOk { s.reading with inMessage := d'.inMessage } _ from
          PauseOk.setMessage hturn ?_)
      exact hturn.phase.setMessage rfl hheld fun hs => absurd hs (Bool.eq_false_iff.mp hmode)

/-- The piece after a chunk keeps the invariant. -/
theorem PauseInv.feedAfterChunk {s : State} {k : List Stmt} {caller : FeedCaller} {data : Bytes}
    (h : PauseOk s.reading (.feedAfterChunk caller data :: k)) :
    PauseAfter (s.feedAfterChunk caller data) k := by
  unfold State.feedAfterChunk
  split
  · exact PauseInv.afterFeed h rfl caller data
  · exact PauseInv.completeFrame h rfl (h.phase.not_held (.inl rfl)) caller data

/-- The piece that takes a chunk keeps the invariant. -/
theorem PauseInv.feedPayload {s : State} {k : List Stmt} {caller : FeedCaller} {data : Bytes}
    (h : PauseOk s.reading (.feedPayload caller data :: k)) :
    PauseAfter (s.feedPayload caller data) k := by
  unfold State.feedPayload
  split
  · exact PauseInv.afterFeed h rfl caller data
  split
  · split
    · exact PauseInv.afterFeed h rfl caller data
    dsimp only
    generalize min s.rx.decoder.remaining data.length = take
    have hm := takeChunk_inMessage s.decoderConfig s.rx.decoder (data.take take)
    have hevents := takeChunk_events s.decoderConfig s.rx.decoder (data.take take)
    generalize WsFrame.takeChunk s.decoderConfig s.rx.decoder (data.take take) = r at hm hevents ⊢
    have hreading : State.reading { s with rx.decoder := r.1 } = s.reading := by
      show { s.reading with inMessage := r.1.inMessage } = s.reading
      rw [hm]
      rfl
    split
    · rename_i hfailed
      refine PauseInv.afterFailedFeed (s := { s with rx.decoder := r.1 }) k h.notFailed ?_ caller _
      rw [State.decoderFailed, bne_iff_ne]
      exact hfailed
    · have hnext : PauseOk (State.reading { s with rx.decoder := r.1 })
          (.feedAfterChunk caller (data.drop take) :: k) := by
        rw [hreading]
        refine h.feeder rfl rfl s.rx.pendingIn fun hd hh => ?_
        exact absurd hh (Bool.eq_false_iff.mp (h.phase.not_held (.inl rfl) hd))
      rcases hevents with hnone | ⟨bytes, hsome⟩
      · rw [hnone]
        exact .settled hnext
      · rw [hsome]
        exact PauseInv.onDataChunk hnext rfl
  · exact PauseInv.completeFrame h rfl (h.phase.not_held (.inl rfl)) caller data

/-- A turn of the loop of `WsDecoder::feed`. -/
theorem PauseInv.feedTurn {s : State} {k : List Stmt} {caller : FeedCaller} {data : Bytes}
    (h : PauseOk s.reading (.feedTurn caller data :: k)) :
    PauseAfter (s.feedTurn caller data) k := by
  have hnone : k.any Stmt.isFeeder = false := (h.stack.only_feeder rfl).2
  unfold State.feedTurn
  split
  · exact PauseInv.afterFeed h rfl caller data
  rename_i hgo
  rw [Bool.not_eq_true, Bool.or_eq_false_iff] at hgo
  -- the loop goes on only where the decoder is not stopped, so no message is held
  have hheld : s.rx.discard = false → s.rx.held = false := h.phase.not_held (.inr ⟨rfl, hgo.2⟩)
  have hnext : ∀ q : Stmt, q.isFeeder = true → PauseOk s.reading (q :: k) := fun q hq =>
    h.feeder rfl hq s.rx.pendingIn fun hd hh => absurd hh (Bool.eq_false_iff.mp (hheld hd))
  dsimp only
  split
  · exact .settled (hnext _ rfl)
  split
  · split
    · exact PauseInv.afterFeed h rfl caller data
    · exact .settled (hnext _ rfl)
  have hstarted := startFrame_started s.decoderConfig s.rx.decoder
  generalize WsFrame.startFrame s.decoderConfig s.rx.decoder = d₁ at hstarted ⊢
  split
  · rename_i hfailed
    refine PauseInv.afterFailedFeed (s := { s with rx.decoder := d₁ }) k h.notFailed ?_ caller _
    rw [State.decoderFailed, bne_iff_ne]
    exact hfailed
  rename_i hok
  rw [Decidable.not_not] at hok
  have hstarted₂ : ({ d₁ with inPayload := true } : WsDecoder).frameIsControl = true
      ∧ ({ d₁ with inPayload := true } : WsDecoder).inMessage = s.rx.decoder.inMessage
      ∨ ({ d₁ with inPayload := true } : WsDecoder).frameIsControl = false
      ∧ ({ d₁ with inPayload := true } : WsDecoder).inMessage = true := hstarted hok
  generalize ({ d₁ with inPayload := true } : WsDecoder) = d₂ at hstarted₂ ⊢
  have hpayload := hnext (.feedPayload caller data) rfl
  -- only the first frame of a data message that is kept is announced
  by_cases hevent : (s.decoderConfig.raw && !s.decoderConfig.discard && !d₂.frameIsControl
      && !s.rx.decoder.inMessage) = true
  · rw [WsFrame.startEvents, if_pos hevent]
    simp only [Bool.and_eq_true, Bool.not_eq_true'] at hevent
    obtain ⟨⟨⟨-, hdiscard⟩, hdata⟩, hout⟩ := hevent
    have hin : d₂.inMessage = true := by
      rcases hstarted₂ with ⟨hcontrol, -⟩ | ⟨-, hin⟩
      · exact absurd hcontrol (Bool.eq_false_iff.mp hdata)
      · exact hin
    have hbefore : { s.reading with inMessage := false } = s.reading := by
      rw [← hout]
      rfl
    refine PauseInv.onDataStart (s := { s with rx.decoder := d₂ }) ?_ hin (fun _ => hdiscard)
      (hheld hdiscard) rfl fun hs => ?_
    · exact hbefore.symm ▸ hpayload
    · have hfed := h.stack.fed hs
      rw [fedPumps, Bool.and_eq_true] at hfed
      have hpumps := h.stack.pumps
      rw [countP_cons_of_false rfl, no_pump hnone hfed.2] at hpumps
      show s.rx.pumpingInflate = false
      refine Bool.eq_false_iff.mpr fun hp => ?_
      rw [show s.reading.pumpingInflate = true from hp] at hpumps
      cases hpumps
  · rw [WsFrame.startEvents, if_neg hevent]
    refine .settled (show PauseOk { s.reading with inMessage := d₂.inMessage } _ from
      PauseOk.setMessage hpayload ?_)
    refine hpayload.phase.setMessage rfl hheld fun hs hd => ?_
    rcases hstarted₂ with ⟨-, hsame⟩ | ⟨hdata, hin⟩
    · exact hsame
    · have hraw : s.decoderConfig.raw = true := by
        show (s.cfg.streamed || s.cfg.deflate) = true
        rw [show s.cfg.streamed = true from hs, Bool.true_or]
      have hkeep : s.decoderConfig.discard = false := hd
      rw [hraw, hkeep, hdata, Bool.not_false, Bool.and_self, Bool.and_self, Bool.true_and,
        Bool.not_eq_true, Bool.not_eq_false'] at hevent
      rw [hin]
      exact hevent.symm

end WsCore

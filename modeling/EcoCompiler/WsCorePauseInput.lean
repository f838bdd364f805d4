import EcoCompiler.WsCorePauseProofs

/-! # Why reading is paused: input

    * `WsCore.PauseInv.onDataStart`, `WsCore.PauseInv.onDataChunk`,
      `WsCore.PauseInv.onDataEnd` — the callbacks of the decoder for a data message. -/

namespace WsCore

open State
open WsFrame (Event kOpText kOpClose kOpPing kOpPong)

/-! ## Callbacks of the decoder -/

/-- A body as `startBody` makes it. -/
theorem newBody_sound (seq : Nat) (text : Bool) : BodySound { seq := seq, text := text } :=
  ⟨rfl, ⟨fun h => absurd rfl h, fun h => by cases h⟩, (fun h => by cases h), fun _ => rfl⟩

theorem newBody_settled (seq : Nat) (text : Bool) (k : List Stmt) :
    BodySettled { seq := seq, text := text } k :=
  ⟨fun h => absurd rfl h, fun h => by cases h⟩

/-- While the inflater is not pumping and no body can go on, nothing is left to inflate. -/
theorem PauseOk.nothing_due {r : Reading} {k : List Stmt} (h : PauseOk r k)
    (hpumping : r.pumpingInflate = false) (hbody : r.body = none) : r.inflateDue = false := by
  refine Bool.eq_false_iff.mpr fun hd => ?_
  rcases h.due hd with hloop | ⟨b, hb, -⟩
  · obtain ⟨p, hp, hl⟩ := List.any_eq_true.mp hloop
    have hnone := h.stack.pumps
    rw [hpumping] at hnone
    have hpump := List.countP_eq_zero.mp hnone p hp
    cases p with
    | inflateLoop => exact hpump rfl
    | _ => cases hl
  · cases hb.symm.trans hbody

/-- Nothing is due: the inflater is empty. -/
theorem InflaterSound.empty {r : Reading} (h : InflaterSound r) (hdue : r.inflateDue = false)
    {i : Inflater} (hi : r.inflater = some i) : i.hasInput = false ∧ i.finished = false := by
  have hflags : r.rxActive = true → r.rxCompressed = true → i.hasInput = false
      ∧ r.rxEndPending = false := by
    intro ha hc
    rw [Reading.inflateDue, hi, ha, hc, Bool.true_and, Bool.true_and, Option.any_some,
      Bool.or_eq_false_iff] at hdue
    exact hdue
  constructor
  · refine Bool.eq_false_iff.mpr fun hin => ?_
    obtain ⟨ha, hc⟩ := h.left i hi hin
    exact Bool.eq_false_iff.mp (hflags ha hc).1 hin
  · refine Bool.eq_false_iff.mpr fun hf => ?_
    obtain ⟨ha, hc, hp⟩ := h.finished i hi hf
    exact Bool.eq_false_iff.mp (hflags ha hc).2 hp

/-- An empty inflater holds nothing for a message just begun. -/
theorem InflaterSound.start {r : Reading} (compressed : Bool)
    (hempty : ∀ i, r.inflater = some i → i.hasInput = false ∧ i.finished = false) :
    InflaterSound { r with
      rxActive := true, rxCompressed := compressed, rxEndPending := false
      inflater := if compressed && r.inflater.isNone then some {} else r.inflater } := by
  have hnew : ∀ i, (if compressed && r.inflater.isNone then some {} else r.inflater) = some i →
      i.hasInput = false ∧ i.finished = false := by
    intro i hi
    split at hi
    · obtain rfl := Option.some.inj hi
      exact ⟨rfl, rfl⟩
    · exact hempty i hi
  refine ⟨fun i hi hin => ?_, fun i hi hf => ?_, fun _ hc => ?_⟩
  · exact absurd hin (Bool.eq_false_iff.mp (hnew i hi).1)
  · exact absurd hf (Bool.eq_false_iff.mp (hnew i hi).2)
  · show ∃ i, (if compressed && r.inflater.isNone then some {} else r.inflater) = some i ∧ _
    rw [show compressed = true from hc, Bool.true_and]
    cases hinfl : r.inflater with
    | none => exact ⟨{}, rfl, (fun h => by cases h)⟩
    | some i => exact ⟨i, rfl, (fun h => by cases h)⟩

/-- With an empty inflater, the pending input of the inflater does not pause. -/
theorem Reading.high_of_empty {r : Reading}
    (hempty : ∀ i, r.inflater = some i → i.hasInput = false ∧ i.finished = false)
    (h : r.high = true) :
    (decide (kReadHighBytes ≤ r.msgQBytes) || decide (kReadHighCount ≤ r.msgQ.length) || r.held
      || r.body.any fun b => decide (kReadHighBytes ≤ b.qBytes)) = true := by
  have hno : r.inflater.any Inflater.hasInput = false := by
    cases hi : r.inflater with
    | none => rfl
    | some i => exact (hempty i hi).1
  rwa [Reading.high, hno, Bool.and_false, Bool.or_false] at h

/-- A whole message begun. -/
theorem PauseOk.startWhole {r : Reading} {k : List Stmt} (h : PauseOk r k)
    (hmode : r.streamed = false) (hbody : r.body = none) (hheld : r.held = false)
    (hpumping : r.pumpingInflate = false) (compressed m : Bool) :
    PauseOk { r with
      inMessage := m, rxActive := true, rxCompressed := compressed, rxEndPending := false
      inflater := if compressed && r.inflater.isNone then some {} else r.inflater } k := by
  have hempty : ∀ i, r.inflater = some i → i.hasInput = false ∧ i.finished = false := fun _ hi =>
    h.inflater.empty (h.nothing_due hpumping hbody) hi
  have hinflater := InflaterSound.start compressed hempty
  refine ⟨⟨h.notFailed, ⟨h.queue.bytes, h.queue.unready, h.queue.shut⟩, ?_, h.body,
    ⟨hinflater.left, hinflater.finished, hinflater.ready⟩⟩, fun hp => ?_, h.settled, fun hd => ?_,
    .whole hmode hbody hheld⟩
  · exact ⟨h.stack.top, h.stack.feeders, h.stack.pumps, h.stack.fed, h.stack.pending,
      h.stack.closing, h.stack.release, h.stack.abandoned,
        fun hp => absurd hp (Bool.eq_false_iff.mp hpumping)⟩
  · refine (h.resumed hp).imp (fun hh => ?_) id
    rw [Reading.high, Reading.high_of_empty hempty hh, Bool.true_or]
  · rw [Reading.inflateDue, Bool.and_eq_true, Option.any_eq_true] at hd
    obtain ⟨-, i, hi, hin⟩ := hd
    rw [Bool.or_false] at hin
    split at hi
    · obtain rfl := Option.some.inj hi
      cases hin
    · exact absurd hin (Bool.eq_false_iff.mp (hempty i hi).1)

/-- A streamed message begun. -/
theorem PauseOk.startStreamed {r : Reading} {k : List Stmt} (h : PauseOk r k)
    (hmode : r.streamed = true) (hdiscard : r.discard = false) (hheld : r.held = false)
    (hbody : r.body = none) (hactive : r.rxActive = false) (hshut : r.readShut = false)
    (habandon : k.any Stmt.isAbandon = false) (compressed text : Bool) (seq : Nat) {m : Bool}
    (hm : m = true) :
    PauseOk { r with
      inMessage := m, rxActive := true, rxCompressed := compressed, rxEndPending := false
      inflater := if compressed && r.inflater.isNone then some {} else r.inflater
      body := some { seq := seq, text := text }
      msgQ := r.msgQ ++ [{ tag := if text then 3 else 4, ready := false, bodySeq := seq }] } k := by
  -- between messages the inflater has nothing left over
  have hempty : ∀ i, r.inflater = some i → i.hasInput = false ∧ i.finished = false := by
    refine fun i hi => ⟨Bool.eq_false_iff.mpr fun hin => ?_, Bool.eq_false_iff.mpr fun hf => ?_⟩
    · exact absurd (h.inflater.left i hi hin).1 (Bool.eq_false_iff.mp hactive)
    · exact absurd (h.inflater.finished i hi hf).1 (Bool.eq_false_iff.mp hactive)
  have hinflater := InflaterSound.start compressed hempty
  have htag : 3 ≤ (if text then 3 else 4 : Int) := by
    split <;> decide
  have hspare : ∀ r' : Reading, r'.body = some { seq := seq, text := text } → Spare r' :=
    fun r' hb => ⟨_, hb, rfl, rfl, rfl⟩
  have hqueue := h.queue.append
    (m := { tag := if text then 3 else 4, ready := false, bodySeq := seq }) (fun _ => htag) hshut
  have hbytes : InMsg.bytes { tag := if text then 3 else 4, ready := false, bodySeq := seq }
      = 0 := by
    rw [InMsg.bytes]
    split <;> rfl
  rw [hbytes] at hqueue
  refine ⟨⟨h.notFailed, ⟨hqueue.bytes, hqueue.unready, hqueue.shut⟩, ?_, ?_,
    ⟨hinflater.left, hinflater.finished, hinflater.ready⟩⟩, fun hp => ?_, ?_,
    fun _ => .inr (hspare _ rfl), ?_⟩
  · exact ⟨h.stack.top, h.stack.feeders, h.stack.pumps, h.stack.fed, h.stack.pending,
      h.stack.closing, h.stack.release, fun ha => absurd ha (Bool.eq_false_iff.mp habandon),
      fun _ _ _ => .inr (hspare _ rfl)⟩
  · intro b hb
    obtain rfl := Option.some.inj hb
    exact newBody_sound seq text
  -- an empty body adds nothing to what is buffered
  · refine (h.resumed hp).imp (fun hh => ?_) id
    have hold := Reading.high_of_empty hempty hh
    rw [hbody, Option.any_none, Bool.or_false] at hold
    simp only [Bool.or_eq_true, decide_eq_true_eq] at hold
    simp only [Reading.high, Bool.or_eq_true, decide_eq_true_eq, List.length_append]
    rcases hold with (hq | hc) | hh
    · exact .inl (.inl (.inl (.inl hq)))
    · exact .inl (.inl (.inl (.inr (Nat.le_add_right_of_le hc))))
    · exact .inl (.inl (.inr hh))
  · intro b hb
    obtain rfl := Option.some.inj hb
    exact newBody_settled seq text k
  · exact .receiving hmode hdiscard hm hheld rfl rfl ⟨_, rfl, rfl⟩
      (fun hs => absurd hs (Bool.eq_false_iff.mp hshut)) habandon

/-- A message begun. -/
theorem PauseInv.onDataStart {s : State} {k : List Stmt} {opcode : Nat} {compressed : Bool}
    (h : PauseOk { s.reading with inMessage := false } k)
    (hmessage : s.rx.decoder.inMessage = true)
    (hdiscard : s.cfg.streamed = true → s.rx.discard = false)
    (hheld : s.rx.held = false) (hfeeder : k.any Stmt.isFeeder = true)
    (hpumping : s.cfg.streamed = false → s.rx.pumpingInflate = false) :
    PauseInv s (.sink (.onDataStart opcode compressed) :: k) := by
  refine .next (fun h => by cases h) fun c => ?_
  show PauseAfter (s.onDataStart opcode compressed) k
  unfold State.onDataStart
  split
  · rename_i hdone
    exact .past (.inl hdone)
  extract_lets _ s₁
  show PauseAfter (if s₁.cfg.streamed then s₁.startBody opcode else s₁, []) k
  cases h.phase with
  | whole hmode hbody _ =>
      rw [if_neg (show ¬ s₁.cfg.streamed = true from Bool.eq_false_iff.mp hmode)]
      exact .settled (h.startWhole hmode hbody hheld (hpumping hmode) compressed _)
  | dropping hmode hd => exact absurd hd (Bool.eq_false_iff.mp (hdiscard hmode))
  | between hmode hd hm hheld hbody hactive hafter hshut habandon =>
      rw [if_pos (show s₁.cfg.streamed = true from hmode)]
      have hstart := h.startStreamed hmode hd hheld hbody hactive hshut habandon compressed
        (decide (opcode = kOpText)) (s.rx.bodySeq + 1) hmessage
      exact .settled hstart
  | receiving hmode hd hm => cases hm
  | waiting hmode hd hm hh => exact absurd hh (Bool.eq_false_iff.mp hheld)
  | drained hmode hd hover hpending hh hnone => exact absurd hfeeder (Bool.eq_false_iff.mp hnone)

/-- More input for the inflater. -/
theorem PauseOk.pushInput {r : Reading} {k : List Stmt} (h : PauseOk r k)
    (hactive : r.rxActive = true) (hcompressed : r.rxCompressed = true) (data : Bytes) :
    PauseCore { r with inflater := r.inflater.map (·.push data) } k
      ∧ (r.high = true →
        Reading.high { r with inflater := r.inflater.map (·.push data) } = true) := by
  have hof : ∀ {i'}, r.inflater.map (·.push data) = some i' →
      ∃ i, r.inflater = some i ∧ i' = i.push data := by
    intro i' hi'
    obtain ⟨i, hi, rfl⟩ := Option.map_eq_some_iff.mp hi'
    exact ⟨i, hi, rfl⟩
  refine ⟨⟨h.notFailed, ⟨h.queue.bytes, h.queue.unready, h.queue.shut⟩, ?_, h.body, ?_, ?_, ?_⟩, ?_⟩
  · exact ⟨h.stack.top, h.stack.feeders, h.stack.pumps, h.stack.fed, h.stack.pending,
      h.stack.closing, h.stack.release, h.stack.abandoned, h.stack.late⟩
  · exact fun _ _ _ => ⟨hactive, hcompressed⟩
  · intro i' hi' hf
    obtain ⟨i, hi, rfl⟩ := hof hi'
    exact h.inflater.finished i hi hf
  · intro ha hc
    obtain ⟨i, hi, hf⟩ := h.inflater.ready ha hc
    refine ⟨i.push data, ?_, hf⟩
    show r.inflater.map (·.push data) = _
    rw [hi]
    rfl
  · intro hh
    simp only [Reading.high, Bool.or_eq_true, Bool.and_eq_true] at hh ⊢
    rcases hh with hh | ⟨hflags, hin⟩
    · exact .inl hh
    · refine .inr ⟨hflags, ?_⟩
      obtain ⟨i, hi, hin⟩ := (Option.any_eq_true _ _).mp hin
      rw [hi, Option.map_some, Option.any_some]
      have hne : i.input ≠ [] := by
        intro hnil
        rw [Inflater.hasInput, hnil] at hin
        cases hin
      show (!(i.input ++ data).isEmpty) = true
      cases hinput : i.input with
      | nil => exact absurd hinput hne
      | cons b rest => rfl

/-- Payload of a message. -/
theorem PauseInv.onDataChunk {s : State} {k : List Stmt} {data : Bytes}
    (h : PauseOk s.reading k) (hfeeder : k.any Stmt.isFeeder = true) :
    PauseInv s (.sink (.onDataChunk data) :: k) := by
  refine .next (fun h => by cases h) fun c => ?_
  show PauseAfter (s.onDataChunk data) k
  unfold State.onDataChunk
  split
  · exact .settled h
  rename_i hopen
  have hactive : s.rx.rxActive = true := by
    cases ha : s.rx.rxActive with
    | true => rfl
    | false =>
        rw [ha, Bool.not_false, Bool.or_true] at hopen
        exact absurd rfl hopen
  split
  · rename_i hcompressed
    obtain ⟨hcore, hhigh⟩ := h.pushInput hactive hcompressed data
    refine PauseInv.pumpInflate hcore (fun hp => (h.resumed hp).imp hhigh id) h.settled
      (fun _ => ?_) (h.phase.frame (SameKinds.refl k).phase) fun _ => hfeeder
    cases hp : s.rx.pumpingInflate with
    | false => exact .inr (.inl rfl)
    | true => exact (h.stack.late hp hactive hcompressed).imp id .inr
  · exact PauseInv.deliverData h

/-- The input of the inflater ended. -/
theorem PauseOk.finishInput {r : Reading} {k : List Stmt} (h : PauseOk r k)
    (hactive : r.rxActive = true) (hcompressed : r.rxCompressed = true)
    {m held stopped discard after : Bool} (hheld : r.held = true → held = true)
    (hdiscard : r.discard = true → discard = true) :
    PauseCore { r with
      inMessage := m, held := held, stopped := stopped, discard := discard
      discardAfterMessage := after, rxEndPending := true
      inflater := r.inflater.map Inflater.finish } k := by
  refine ⟨h.notFailed, ⟨h.queue.bytes, h.queue.unready, h.queue.shut⟩, ?_, h.body, ?_, ?_, ?_⟩
  · exact ⟨h.stack.top, h.stack.feeders, h.stack.pumps, h.stack.fed,
      fun hp => (h.stack.pending hp).imp hheld id, fun hc => hdiscard (h.stack.closing hc),
      fun hr => hdiscard (h.stack.release hr), h.stack.abandoned, h.stack.late⟩
  · exact fun _ _ _ => ⟨hactive, hcompressed⟩
  · exact fun _ _ _ => ⟨hactive, hcompressed, rfl⟩
  · intro ha hc
    obtain ⟨i, hi, -⟩ := h.inflater.ready ha hc
    refine ⟨i.finish, ?_, fun _ => rfl⟩
    show r.inflater.map Inflater.finish = _
    rw [hi]
    rfl

/-- A message that is not compressed ended. -/
theorem PauseOk.endPlain {r : Reading} {k : List Stmt} (h : PauseOk r k)
    (hcompressed : r.rxCompressed = false) {m held stopped discard after : Bool}
    (hheld : r.held = true → held = true) (hdiscard : r.discard = true → discard = true) :
    PauseCore { r with
      inMessage := m, held := held, stopped := stopped, discard := discard
      discardAfterMessage := after, rxActive := false, rxEndPending := false } k := by
  refine ⟨h.notFailed, ⟨h.queue.bytes, h.queue.unready, h.queue.shut⟩, ?_, h.body, ?_, ?_, ?_⟩
  · exact ⟨h.stack.top, h.stack.feeders, h.stack.pumps, h.stack.fed,
      fun hp => (h.stack.pending hp).imp hheld id, fun hc => hdiscard (h.stack.closing hc),
      fun hr => hdiscard (h.stack.release hr), h.stack.abandoned, fun _ ha _ => (by cases ha)⟩
  · intro i hi hin
    exact absurd (h.inflater.left i hi hin).2 (Bool.eq_false_iff.mp hcompressed)
  · intro i hi hf
    exact absurd (h.inflater.finished i hi hf).2.1 (Bool.eq_false_iff.mp hcompressed)
  · exact fun ha => by cases ha

/-- Whether a message is in progress matters to the phase only. -/
theorem PauseOk.setMessage {r : Reading} {k : List Stmt} {m m' : Bool}
    (h : PauseOk { r with inMessage := m } k) (hphase : Phase { r with inMessage := m' } k) :
    PauseOk { r with inMessage := m' } k :=
  ⟨⟨h.notFailed, ⟨h.queue.bytes, h.queue.unready, h.queue.shut⟩,
    ⟨h.stack.top, h.stack.feeders, h.stack.pumps, h.stack.fed, h.stack.pending, h.stack.closing,
      h.stack.release, h.stack.abandoned, h.stack.late⟩, h.body,
    ⟨h.inflater.left, h.inflater.finished, h.inflater.ready⟩⟩, h.resumed, h.settled, h.due, hphase⟩

/-- A compressed message ended: the rest of it is inflated. -/
theorem PauseInv.endCompressed {s s' : State} {k : List Stmt} {m : Bool}
    (h : PauseOk { s.reading with inMessage := m } k) (hfeeder : k.any Stmt.isFeeder = true)
    (hactive : s.rx.rxActive = true) (hcompressed : s.rx.rxCompressed = true)
    {held stopped discard after : Bool} (hheld : s.rx.held = true → held = true)
    (hdiscard : s.rx.discard = true → discard = true)
    (hs : { s.reading with
      held := held, stopped := stopped, discard := discard, discardAfterMessage := after
      rxEndPending := true, inflater := s.rx.inflater.map Inflater.finish } = s'.reading)
    (hphase : Phase s'.reading k) : PauseInv s' (.pumpInflate :: .checkPause :: k) := by
  have hcore : PauseCore s'.reading k := hs ▸ h.finishInput hactive hcompressed hheld hdiscard
  have hbody : s'.rx.body = s.rx.body := congrArg Reading.body hs.symm
  refine PauseInv.pumpInflate (hcore.push rfl) (fun _ => .inr rfl) (fun b hb => ?_) (fun _ => ?_)
    (hphase.frame (.push k rfl)) fun _ => hfeeder
  · have hold := h.settled b (hbody.symm.trans hb)
    exact ⟨hold.reads, hold.finished⟩
  · cases hp : s'.rx.pumpingInflate with
    | false => exact .inr (.inl rfl)
    | true =>
        have hp' : s.rx.pumpingInflate = true := (congrArg Reading.pumpingInflate hs).trans hp
        refine (h.stack.late hp' hactive hcompressed).imp id fun ⟨b, hb, hrest⟩ =>
          .inr ⟨b, ?_, hrest⟩
        exact hbody.trans hb

/-- A message that is not compressed ended. -/
theorem PauseInv.endWhole {s s' : State} {k : List Stmt} {m : Bool}
    (h : PauseOk { s.reading with inMessage := m } k) (hactive : s.rx.rxActive = true)
    (hcompressed : s.rx.rxCompressed = false) {held stopped discard after : Bool}
    (hheld : s.rx.held = true → held = true) (hdiscard : s.rx.discard = true → discard = true)
    (hs : { s.reading with
      held := held, stopped := stopped, discard := discard, discardAfterMessage := after }
      = s'.reading)
    (hnone : s'.rx.body = none →
      Phase { s'.reading with rxActive := false, rxEndPending := false } k)
    (hmode : s'.cfg.streamed = false → s'.rx.body = none)
    (hsome : ∀ b, s'.rx.body = some b → Phase { s'.reading with
      rxActive := false, rxEndPending := false, body := some (Body.completed b) } k) :
    PauseInv s' (.messageComplete :: .checkPause :: k) := by
  have hcore : PauseCore { s'.reading with rxActive := false, rxEndPending := false } k := by
    rw [← hs]
    exact h.endPlain hcompressed hheld hdiscard
  refine PauseInv.messageComplete ?_ (hcore.push rfl) rfl (fun hb => ?_) hmode fun b hb => ?_
  · exact (congrArg Reading.rxActive hs).symm.trans hactive
  · exact (hnone hb).frame (.push k rfl)
  · exact (hsome b hb).frame (.push k rfl)

/-- The end of a message.  Before it the receiver stood in the message. -/
theorem PauseInv.onDataEnd {s : State} {k : List Stmt} {m : Bool}
    (h : PauseOk { s.reading with inMessage := m } k) (hmessage : s.rx.decoder.inMessage = false)
    (hdiscard : s.cfg.streamed = true → s.rx.discard = false)
    (hheld : s.rx.held = false) (hfeeder : k.any Stmt.isFeeder = true)
    (hmid : k.any Stmt.isMidFeed = false) : PauseInv s (.sink .onDataEnd :: k) := by
  refine .next (fun h => by cases h) fun c => ?_
  show PauseAfter s.onDataEnd k
  have hnotHeld : ∀ {p : Prop}, s.rx.held = true → p := fun hh =>
    absurd hh (Bool.eq_false_iff.mp hheld)
  unfold State.onDataEnd
  split
  -- nothing is active: the phase stays, and the receiver has left the message
  · rename_i hstop
    rcases Bool.or_eq_true_iff.mp hstop with hdone | hidle
    · exact .past (.inl hdone)
    · have hinactive : ∀ {p : Prop}, s.rx.rxActive = true → p := fun ha => by
        rw [ha] at hidle
        cases hidle
      refine .settled (show PauseOk { s.reading with inMessage := s.rx.decoder.inMessage } k from
        h.setMessage ?_)
      cases h.phase with
      | whole hmode hbody hh => exact .whole hmode hbody hh
      | dropping hmode hd hh ha => exact .dropping hmode hd hh ha
      | between hmode hd hm hh hbody ha hafter hshut habandon =>
          exact .between hmode hd hmessage hh hbody ha hafter hshut habandon
      | receiving hmode hd hm hh ha => exact hinactive ha
      | waiting hmode hd hm hh => exact hnotHeld hh
      | drained hmode hd hover hpending hh hnone ha =>
          exact .drained hmode hd hover hpending hh hnone ha
  rename_i hopen
  have hactive : s.rx.rxActive = true := by
    cases ha : s.rx.rxActive with
    -- reading was shut down in the middle of the message: what follows is discarded
    | true => rfl
    -- the next message waits until this one is consumed
    | false =>
        rw [ha, Bool.not_false, Bool.or_true] at hopen
        exact absurd rfl hopen
  -- whole messages go straight to a reader; a streamed one holds the decoder until it is read
  cases h.phase with
  | whole hmode hbody hh =>
      have hsame : s.holdAfterMessage = s := by
        rw [State.holdAfterMessage, show s.cfg.streamed = false from hmode]
        rfl
      rw [hsame]
      dsimp only
      split
      · rename_i hcompressed
        exact PauseInv.endCompressed h hfeeder hactive hcompressed id id rfl (.whole hmode hbody hh)
      · rename_i hcompressed
        exact PauseInv.endWhole h hactive (Bool.eq_false_iff.mpr hcompressed) id id rfl
          (fun _ => .whole hmode hbody hh) (fun _ => hbody) fun b hb => by cases hb.symm.trans hbody
  | dropping hmode hd => exact absurd hd (Bool.eq_false_iff.mp (hdiscard hmode))
  | between hmode hd hm hheld hbody ha => exact absurd hactive (Bool.eq_false_iff.mp ha)
  | receiving hmode hd hm _ _ hpending hbody hshut habandon =>
      obtain ⟨b, hb, hdone⟩ := hbody
      cases hafter : s.rx.discardAfterMessage with
      | true =>
          have hhold : s.holdAfterMessage
              = { s with rx.discardAfterMessage := false }.discardData := by
            rw [State.holdAfterMessage, show s.cfg.streamed = true from hmode, hafter]
            rfl
          rw [hhold]
          dsimp only
          split
          · rename_i hcompressed
            exact PauseInv.endCompressed h hfeeder hactive hcompressed id (fun _ => rfl) rfl
              (.dropping hmode rfl hnotHeld fun _ => .inl ⟨b, hb, hdone⟩)
          · rename_i hcompressed
            exact PauseInv.endWhole h hactive (Bool.eq_false_iff.mpr hcompressed) id (fun _ => rfl)
              rfl (fun _ => .dropping hmode rfl hnotHeld fun ha => by cases ha)
              (fun hs => absurd hmode (Bool.eq_false_iff.mp hs))
              fun b hb => .dropping hmode rfl hnotHeld fun ha => by cases ha
      | false =>
          have hhold : s.holdAfterMessage = { s with rx.held := true }.stopDecoder := by
            rw [State.holdAfterMessage, show s.cfg.streamed = true from hmode, hafter]
            rfl
          have hnotShut : s.rd.readShut = false := Bool.eq_false_iff.mpr fun hs =>
            Bool.eq_false_iff.mp hafter (hshut hs)
          rw [hhold]
          dsimp only
          split
          · rename_i hcompressed
            exact PauseInv.endCompressed h hfeeder hactive hcompressed (fun _ => rfl) id rfl
              (.waiting hmode hd hmessage rfl hafter hnotShut hmid (fun _ => rfl) b hb
                (.inr ⟨hactive, hcompressed, rfl⟩) (fun _ => .inl hdone)
                (fun ha => absurd ha (Bool.eq_false_iff.mp habandon)))
          · rename_i hcompressed
            exact PauseInv.endWhole h hactive (Bool.eq_false_iff.mpr hcompressed) (fun _ => rfl) id
              rfl (fun hnone => by cases hb.symm.trans hnone)
              (fun hs => absurd hmode (Bool.eq_false_iff.mp hs)) fun b _ =>
                .waiting hmode hd hmessage rfl hafter hnotShut hmid (fun _ => rfl)
                  (Body.completed b) rfl (.inl rfl) (fun ha => by cases ha)
                  fun ha => absurd ha (Bool.eq_false_iff.mp habandon)
  | waiting hmode hd hm hh => exact hnotHeld hh
  | drained hmode hd hover hpending hh hnone => exact absurd hfeeder (Bool.eq_false_iff.mp hnone)

end WsCore

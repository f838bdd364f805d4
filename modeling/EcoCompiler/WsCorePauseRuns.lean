import EcoCompiler.WsCorePauseFeed

/-! # Why reading is paused: every run

    * `WsCore.PauseInv.exec` — every piece keeps `PauseInv`;
    * `WsCore.PauseInv.enterIdle`, `WsCore.PauseInv.enterCallback` — every entry point does. -/

namespace WsCore

open State
open WsFrame (Event kOpText kOpClose kOpPing kOpPong)

/-! ## Input done or the transport gone -/

/-- Input is done, or the transport is gone. -/
def Past (s : State) : Prop := s.rx.inputDone = true ∨ s.tr.gone = true

/-- Past stays past when neither flag is taken back. -/
theorem Past.of {s s' : State} (h : Past s)
    (hinput : s.rx.inputDone = true → s'.rx.inputDone = true)
    (hgone : s.tr.gone = true → s'.tr.gone = true) : Past s' :=
  h.imp hinput hgone

theorem Past.of_eq {s s' : State} (h : Past s) (hrx : s'.rx.inputDone = s.rx.inputDone)
    (htr : s'.tr = s.tr) : Past s' :=
  h.of (fun hi => hrx.trans hi) fun hg => by rw [htr]; exact hg

/-- A quiet piece keeps past. -/
theorem Past.quiet {s : State} {e : Exec} (h : Past s) (he : Quiet s e) : Past e.1 :=
  h.of he.input fun hg => (congrArg (fun x : Sending => x.tr.gone) he.same).trans hg

theorem Past.writeControl {s : State} (h : Past s) (opcode : Nat) (payload : Bytes)
    (done : Option Completion) : Past (s.writeControl opcode payload done).1 := by
  rw [State.writeControl]
  split <;> exact h

theorem Past.setCloseInfo {s : State} (h : Past s) (code : Nat) (reason : Bytes) (clean : Bool) :
    Past (s.setCloseInfo code reason clean) := by
  rw [State.setCloseInfo]
  split <;> exact h

theorem Past.postClosed {s : State} (h : Past s) : Past s.postClosed.1 := by
  unfold State.postClosed
  split
  · exact h
  · have hinfo : Past (State.setCloseInfo { s with cl.closedPosted := true } kCloseAbnormal []
        false) := Past.setCloseInfo (s := { s with cl.closedPosted := true }) h _ _ _
    dsimp only
    split <;> exact hinfo

/-- A failure keeps past. -/
theorem Past.failWith {s : State} (h : Past s) (frameCode : Nat) (frameText : Bytes)
    (infoCode : Nat) (infoReason : Bytes) (readErr : Nat) (readReason : String) :
    Past (s.failWith frameCode frameText infoCode infoReason readErr readReason).1 := by
  unfold State.failWith
  split
  · exact h
  · exact Past.setCloseInfo (.inl rfl) _ _ _

theorem Past.complete {s : State} (h : Past s) (done : Completion) (err : Nat) :
    Past (s.complete done err).1 := by
  cases done with
  | closeFrameWritten =>
      show Past (s.closeFrameWritten err).1
      rw [State.closeFrameWritten]
      split
      · dsimp only
        split <;> exact h
      · exact h
  | writeResult chan token size => exact h
  | streamClosed chan token => exact h

/-- The loop over the messages to write keeps past. -/
theorem Past.pumpLoop {s : State} (h : Past s) (c : Choice) : Past (s.pumpLoop c).1 := by
  unfold State.pumpLoop
  split
  · exact h
  · dsimp only
    split
    · exact h
    · split
      · exact h
      · split
        · exact h
        · split
          · unfold pumpChunk
            dsimp only
            split
            · exact h
            · split <;> exact h
          · split <;> exact h
      · unfold pumpMessage
        dsimp only
        split
        · exact h
        · split <;> exact h

/-- A control frame keeps past. -/
theorem Past.onControl {s : State} (h : Past s) (c : Choice) (opcode : Nat) (payload : Bytes) :
    Past (s.onControl c opcode payload).1 := by
  unfold State.onControl
  split
  · exact h
  split
  · split
    · exact h
    · exact h.writeControl _ _ _
  split
  · exact h.quiet (onPong_quiet c s payload)
  split
  · exact .inl (onClose_inputDone s payload)
  · exact h

/-- Input stays done, and the transport gone. -/
theorem Past.exec {s : State} (h : Past s) (c : Choice) (p : Stmt) : Past (s.exec c p).1 := by
  -- a piece that writes is looked at, each other one is quiet
  by_cases hp : p.isWriter = true
  · cases p with
    | sink event =>
        cases event with
        | onControl opcode payload => exact h.onControl c opcode payload
        | _ => exact Bool.noConfusion hp
    | closeEcho code =>
        show Past (s.closeEcho c code).1
        unfold State.closeEcho
        split
        · exact h
        · dsimp only
          split <;> exact h
    | sendEcho code => exact Past.writeControl (s := { s with cl.closeSent := true }) h _ _ _
    | pumpLoop => exact h.pumpLoop c
    | pushClose code reason =>
        show Past (s.pushClose c code reason).1
        unfold State.pushClose
        dsimp only
        split <;> exact h
    | failConnection code text => exact h.failWith _ _ _ _ _ _
    | failWithClose frameCode frameText =>
        show Past (s.failWithClose frameCode frameText).1
        unfold State.failWithClose
        dsimp only
        split
        · exact h
        · exact Past.writeControl (s := { State.failQueued { s with wr.writeClosed := true }
            kSocketClosed with cl.closeQueued := true, cl.closeSent := true }) h _ _ _
    | complete done err => exact h.complete done err
    | finishIfDone =>
        show Past s.finishIfDone.1
        rw [State.finishIfDone]
        split <;> exact h
    | endedRest =>
        show Past s.endedRest.1
        unfold State.endedRest
        dsimp only
        split <;> exact h
    | postClosed => exact h.postClosed
    | sendPing payload => exact h.writeControl _ _ _
    | sendHeartbeat =>
        exact Past.writeControl (s := { s with lv.pingCounter := s.lv.pingCounter + 1 }) h _ _ _
    | _ => exact Bool.noConfusion hp
  · exact h.quiet (exec_quiet c s (Bool.eq_false_iff.mpr hp))

/-! ## Pieces -/

/-- The failure of a connection whose Closed was not posted ends its input. -/
theorem failConnection_past {s : State} (code : Nat) (text : String)
    (hfailed : s.cl.failed = true → s.rx.inputDone = true)
    (hposted : s.cl.closedPosted = true → s.rx.inputDone = true) :
    Past (s.failConnection code text).1 := by
  unfold State.failConnection State.failWith
  split
  · rename_i hstop
    rw [Bool.or_eq_true] at hstop
    exact .inl (hstop.elim hfailed hposted)
  · exact Past.setCloseInfo (.inl rfl) _ _ _

/-- The handshake's deadline is set only after data is discarded. -/
theorem PauseInv.pushClose {s : State} {k : List Stmt} (c : Choice) {code : Nat} {reason : Bytes}
    (h : PauseOk s.reading (.pushClose code reason :: k)) :
    PauseAfter (s.pushClose c code reason) k := by
  have hdiscard : s.rx.discard = true := h.stack.closing (.inr rfl)
  have hpop : ∀ (handshake : Int) (ks : List Stmt), ks.all Stmt.isMild = true →
      PauseOk { s.reading with handshake := handshake } (ks ++ k) := by
    intro handshake ks hks
    have hk : PauseOk { s.reading with handshake := handshake } k := by
      refine ⟨⟨h.notFailed, ⟨h.queue.bytes, h.queue.unready, h.queue.shut⟩, ?_, h.body,
        ⟨h.inflater.left, h.inflater.finished, h.inflater.ready⟩⟩, h.resumed, fun b hb => ?_, h.due,
          ?_⟩
      · exact ⟨h.stack.top, h.stack.feeders, h.stack.pumps, fun hs => h.stack.fed hs,
          h.stack.pending, fun _ => hdiscard, h.stack.release, h.stack.abandoned, h.stack.late⟩
      · exact ⟨(h.settled b hb).reads, (h.settled b hb).finished⟩
      · have hkinds : PhaseKinds (.pushClose code reason :: k) k := ⟨rfl, rfl, id, id, id⟩
        exact h.phase.frame hkinds
    exact hk.kinds (.append ks k hks) (resumed_append ks hk.resumed)
  unfold State.pushClose
  dsimp only
  split
  · exact .settled (hpop _ [.inPort, .pumpWrites] rfl)
  · exact .settled (hpop _ [.pumpWrites] rfl)

/-- Every piece keeps `PauseInv`. -/
theorem PauseInv.exec {s : State} {p : Stmt} {k : List Stmt} (c : Choice) (h : PauseInv s (p :: k))
    (hstall : ∀ code text, p = .failConnection code text →
      s.cl.closedPosted = true → s.rx.inputDone = true) :
    PauseAfter (s.exec c p) k := by
  generalize hstack : p :: k = stack at h
  cases h with
  | past h => exact .past (Past.exec h c p)
  | failing hfailed =>
      obtain ⟨rfl, rfl⟩ := List.cons.inj hstack
      exact .past (failConnection_past _ _ hfailed (hstall _ _ rfl))
  | next _ hnext =>
      obtain ⟨rfl, rfl⟩ := List.cons.inj hstack
      exact hnext c
  | settled hok =>
      subst hstack
      have htop := hok.stack.top
      rw [List.any_cons, Bool.or_eq_false_iff] at htop
      by_cases hplain : p.isPlain = true
      · exact PauseInv.plain c hok hplain
      · cases p with
        | processInput => exact PauseInv.processInput hok
        | processLoop => exact PauseInv.processLoop hok
        | feedTurn caller data => exact PauseInv.feedTurn hok
        | feedPayload caller data => exact PauseInv.feedPayload hok
        | feedAfterChunk caller data => exact PauseInv.feedAfterChunk hok
        | inflateLoop => exact PauseInv.inflateLoop c hok
        | inflateEnd => exact PauseInv.inflateEndOk hok
        | abandonRx => exact PauseInv.abandonRx hok
        | abandonActiveRx => exact PauseInv.abandonActiveRx hok
        | maybeFinishBody => exact PauseInv.maybeFinishBody hok
        | releaseHold => exact PauseInv.releaseHold hok
        | deliverReads => exact PauseInv.deliverReads hok
        | checkPause => exact PauseInv.checkPause c hok
        | pushClose code reason => exact PauseInv.pushClose c hok
        | errorAbort => exact PauseInv.abort hok rfl rfl
        | timeoutAbort => exact PauseInv.abort hok rfl rfl
        | setDeadline timer t =>
            cases timer with
            | closeHandshake => exact Bool.noConfusion htop.1
            | _ => exact absurd rfl hplain
        | _ => first | exact absurd rfl hplain | exact Bool.noConfusion htop.1

/-! ## Between entry points -/

/-- With nothing on the stack nothing is processed or pumped, and input waits only behind a held
    turn. -/
theorem PauseOk.idle {r : Reading} (h : PauseOk r []) :
    r.processing = false ∧ r.pumpingInflate = false ∧ (r.pendingIn ≠ [] → r.held = true) := by
  have hfeeders := h.stack.feeders
  have hpumps := h.stack.pumps
  have hprocessing : r.processing = false := by
    refine Bool.eq_false_iff.mpr fun hp => ?_
    rw [hp] at hfeeders
    cases hfeeders
  refine ⟨hprocessing, ?_, fun hne => ?_⟩
  · refine Bool.eq_false_iff.mpr fun hp => ?_
    rw [hp] at hpumps
    cases hpumps
  · rcases h.stack.pending hne with hheld | hp | hinput
    · exact hheld
    · exact absurd hp (Bool.eq_false_iff.mp hprocessing)
    · cases hinput

/-- A message waits to be released for a body that is open and has no reads waiting. -/
theorem PauseOk.held_body {r : Reading} (h : PauseOk r []) (hheld : r.held = true) :
    ∃ b, r.body = some b ∧ b.reads = [] ∧ b.cancelled = false ∧ b.endDelivered = false
      ∧ (b.messageDone = true ∨ r.inflateDue = true) := by
  cases h.phase with
  | whole hmode hbody hh => exact absurd hheld (Bool.eq_false_iff.mp hh)
  | dropping hmode hdiscard hh => cases hh hheld
  | between hmode hdiscard hmessage hh => exact absurd hheld (Bool.eq_false_iff.mp hh)
  | receiving hmode hdiscard hmessage hh => exact absurd hheld (Bool.eq_false_iff.mp hh)
  | drained hmode hdiscard hover hpending hh => exact absurd hheld (Bool.eq_false_iff.mp hh)
  | waiting hmode hdiscard hmessage hh hafter hshut hmid hturn b hbody hend =>
      rcases hend with hdone | ⟨hactive, hcompressed, hpending⟩
      · -- The end arrived and was not read: a read or a cancel would have finished the body.
        have hopen : Body.finished b = false := by
          refine Bool.eq_false_iff.mpr fun hf => ?_
          cases (h.settled b hbody).finished hf
        have hreads : b.reads = [] := by
          by_contra hne
          rcases (h.settled b hbody).reads hne with ⟨-, hnone⟩ | hf
          · exact (h.body b hbody).ended.mpr hdone hnone
          · exact absurd hf (Bool.eq_false_iff.mp hopen)
        rw [Body.finished, hdone, Bool.true_or, Bool.and_true, Bool.or_eq_false_iff] at hopen
        exact ⟨b, hbody, hreads, hopen.2, hopen.1, .inl hdone⟩
      · obtain ⟨i, hi, -⟩ := h.inflater.ready hactive hcompressed
        have hdue : r.inflateDue = true := by
          rw [Reading.inflateDue, hactive, hcompressed, hi, Option.any_some, hpending, Bool.or_true]
          rfl
        rcases h.due hdue with hloop | ⟨b', hb', hcancelled, hnone, hreads⟩
        · cases hloop
        · obtain rfl : b = b' := Option.some.inj (hbody.symm.trans hb')
          refine ⟨b, hbody, hreads, hcancelled, ?_, .inr hdue⟩
          refine Bool.eq_false_iff.mpr fun hd => ?_
          exact ((h.body b hbody).delivered hd).2 hnone

/-- A pause between entry points has a reason that the program can remove. -/
theorem PauseOk.heldByProgram {s : State} (h : PauseOk s.reading [])
    (hpaused : s.rd.paused = true) :
    HeldByProgram s := by
  have hdue : s.reading.inflateDue = true → HeldByProgram s := by
    intro hd
    rcases h.due hd with hloop | ⟨b, hb, hcancelled, -, -⟩
    · cases hloop
    · exact .inr ⟨b, hb, hcancelled, .inr (.inr hd)⟩
  have hqueue : s.rd.msgQ ≠ [] → HeldByProgram s := by
    intro hne
    refine .inl ⟨Bool.eq_false_iff.mpr fun hs => ?_, hne⟩
    exact hne (h.queue.shut hs)
  rcases h.resumed hpaused with hhigh | hresume
  · simp only [Reading.high, Bool.or_eq_true, decide_eq_true_eq] at hhigh
    rcases hhigh with (((hbytes | hcount) | hheld) | hfull) | hinflate
    · refine hqueue fun hnil => ?_
      have hzero : s.reading.msgQBytes = 0 := by
        rw [h.queue.bytes, show s.reading.msgQ = [] from hnil]
        rfl
      rw [hzero] at hbytes
      exact absurd hbytes (by decide)
    · refine hqueue fun hnil => ?_
      rw [show s.reading.msgQ = [] from hnil] at hcount
      exact absurd hcount (by decide)
    · obtain ⟨b, hb, -, hcancelled, hdelivered, hdone | hd⟩ := h.held_body hheld
      · exact .inr ⟨b, hb, hcancelled, .inr (.inl ⟨(h.body b hb).ended.mpr hdone, hdelivered⟩)⟩
      · exact hdue hd
    · obtain ⟨b, hb, hbytes⟩ := (Option.any_eq_true _ _).mp hfull
      have hdata : b.q ≠ [] := by
        intro hnil
        rw [(h.body b hb).bytes, hnil] at hbytes
        exact absurd hbytes (by decide)
      refine .inr ⟨b, hb, Bool.eq_false_iff.mpr fun hc => ?_, .inl hdata⟩
      exact hdata ((h.body b hb).cancelled hc)
    · refine hdue ?_
      rw [Bool.and_eq_true, Option.any_eq_true] at hinflate
      obtain ⟨hflags, i, hi, hin⟩ := hinflate
      rw [Reading.inflateDue, hflags, hi, Option.any_some, hin]
      rfl
  · cases hresume

/-! ## The end of input -/

/-- A body that fails before its end was delivered is not finished by that. -/
theorem failedWith_open {b : Body} (err : Nat) (reason : String) (hcancelled : b.cancelled = false)
    (hdelivered : b.endDelivered = false) :
    Body.finished (Body.failedWith b err reason) = false := by
  obtain ⟨-, -, -, -, hc, hd⟩ := failedWith_eq b err reason
  rw [Body.finished, hc, hd, hcancelled, hdelivered]
  rfl

/-- The receiver once no more input comes: `body` is what it held, at its end. -/
theorem Phase.ended {r : Reading} {body : Option Body} {k : List Stmt} (h : PauseOk r [])
    (hover : r.inputOver = true ∨ r.discard = true) (hnone : r.body = none → body = none)
    (hwait : r.held = true → ∃ b, body = some b ∧ b.messageDone = true ∧ b.reads = []
      ∧ Body.finished b = false)
    (habandon : k.any Stmt.isAbandon = true) (hfeeder : k.any Stmt.isFeeder = false) :
    Phase { r with body := body } k := by
  obtain ⟨-, -, hpending⟩ := h.idle
  obtain ⟨hnoMid, hnoTurn, -⟩ := no_feed hfeeder
  have hempty : r.held = false → r.pendingIn = [] := by
    intro hheld
    by_contra hne
    exact absurd (hpending hne) (Bool.eq_false_iff.mp hheld)
  have hdrained : r.discard = false → r.inputOver = true := by
    intro hdiscard
    exact hover.resolve_right (Bool.eq_false_iff.mp hdiscard)
  cases h.phase with
  | whole hmode hbody hheld => exact .whole hmode (hnone hbody) hheld
  | dropping hmode hdiscard hheld =>
      exact .dropping hmode hdiscard (fun hh => by cases hheld hh) fun _ => .inr habandon
  | between hmode hdiscard hmessage hheld =>
      exact .drained hmode hdiscard (hdrained hdiscard) (hempty hheld) hheld hfeeder
        fun _ => .inr habandon
  | receiving hmode hdiscard hmessage hheld =>
      exact .drained hmode hdiscard (hdrained hdiscard) (hempty hheld) hheld hfeeder
        fun _ => .inr habandon
  | waiting hmode hdiscard hmessage hheld hafter hshut =>
      obtain ⟨b, hb, hdone, hreads, hopen⟩ := hwait hheld
      refine .waiting hmode hdiscard hmessage hheld hafter hshut hnoMid (fun ht => ?_) b hb
        (.inl hdone) (fun _ => .inr habandon) fun _ => ⟨hreads, hopen, hdone⟩
      exact absurd ht (Bool.eq_false_iff.mp hnoTurn)
  | drained hmode hdiscard hover' hpending' hheld =>
      exact .drained hmode hdiscard hover' hpending' hheld hfeeder fun _ => .inr habandon

/-- A piece that gives the message up, above mild pieces. -/
theorem PauseCore.pushAbandon {r : Reading} {k : List Stmt} (h : PauseCore r []) {p : Stmt}
    (hp : p.isAbandon = true) (hk : k.all Stmt.isMild = true)
    (hended : ∀ b, r.body = some b → b.end_ ≠ .None) : PauseCore r (p :: k) := by
  obtain ⟨htop, hfeeder, -, -, -, hinput, hclose, hrelease, hpump, hloop, -⟩ :=
    Stmt.isAbandon_kinds hp
  have hmild : PauseCore r k := by
    have hkinds := SameKinds.append k [] hk
    rw [List.append_nil] at hkinds
    exact h.kinds hkinds
  refine ⟨hmild.notFailed, hmild.queue, ?_, hmild.body, hmild.inflater⟩
  constructor
  · exact (any_cons_of_false htop).trans hmild.stack.top
  · exact (countP_cons_of_false hfeeder).trans hmild.stack.feeders
  · exact (countP_cons_of_false hpump).trans hmild.stack.pumps
  · intro hs
    rw [fedPumps, hpump, Bool.not_false, Bool.true_or, Bool.true_and]
    exact hmild.stack.fed hs
  · rw [any_cons_of_false hinput]
    exact hmild.stack.pending
  · rw [any_cons_of_false hclose]
    exact hmild.stack.closing
  · rw [any_cons_of_false hrelease]
    exact hmild.stack.release
  · exact fun _ => hended
  · rw [any_cons_of_false hloop]
    exact hmild.stack.late

/-- A failed body in place of one that is still open. -/
theorem PauseCore.failBody {r : Reading} (h : PauseOk r []) {b : Body} (hb : r.body = some b)
    (err : Nat) (reason : String) :
    PauseCore { r with body := some (Body.failedWith b err reason) } [] := by
  obtain ⟨-, hpumping, -⟩ := h.idle
  refine h.toPauseCore.setBody hb (failedWith_sound (h.body b hb) err reason)
    (fun _ => (failedWith_eq b err reason).1) fun hp => ?_
  exact absurd hp (Bool.eq_false_iff.mp hpumping)

/-- The input ended, between entry points. -/
theorem PauseInv.ended {s : State} {k : List Stmt} (err : Nat) (reason : String)
    (h : PauseOk s.reading []) (hk : k.all Stmt.isMild = true)
    (hover : s.out.inputOver = true ∨ s.rx.discard = true) :
    PauseInv s (.ended err reason :: k) := by
  refine .next (fun h => by cases h) fun c => ?_
  show PauseAfter (s.ended err reason) k
  obtain ⟨-, hpumping, -⟩ := h.idle
  rw [State.ended]
  have hreading := setCloseInfo_reading s kCloseAbnormal [] false
  generalize s.setCloseInfo kCloseAbnormal [] false = s₁ at hreading ⊢
  rw [← hreading] at h
  rw [← show s₁.out.inputOver = s.out.inputOver from congrArg Reading.inputOver hreading,
    ← show s₁.rx.discard = s.rx.discard from congrArg Reading.discard hreading] at hover
  have hpump₁ : s₁.rx.pumpingInflate = false :=
    (congrArg Reading.pumpingInflate hreading).trans hpumping
  -- What follows the failure of the body.
  let rest := Stmt.endReadable .Error err reason :: .endedRest :: .postClosed :: k
  have hrest : rest.all Stmt.isMild = true := hk
  have habandon : (Stmt.abandonActiveRx :: rest).any Stmt.isAbandon = true := rfl
  have hfeeder : (Stmt.abandonActiveRx :: rest).any Stmt.isFeeder = false := by
    have hkinds := SameKinds.append rest [] hrest
    rw [List.append_nil] at hkinds
    exact (any_cons_of_false rfl).trans hkinds.feeder
  rw [State.failBody]
  split
  · rename_i hopen
    obtain ⟨b, hb, hnotDone⟩ := (Option.any_eq_true _ _).mp hopen
    refine PauseInv.bodyFail (k := .abandonActiveRx :: rest) hb ?_ hpump₁ ?_
    · refine (PauseCore.failBody h hb err reason).pushAbandon rfl hrest fun b' hb' => ?_
      obtain rfl := Option.some.inj hb'
      exact (failedWith_eq b err reason).1
    · refine Phase.ended h hover (fun hnone => by cases hb.symm.trans hnone) (fun hheld => ?_)
        habandon hfeeder
      obtain ⟨b', hb', hreads, hcancelled, hdelivered, -⟩ := h.held_body hheld
      obtain rfl : b = b' := Option.some.inj (hb.symm.trans hb')
      exact ⟨_, rfl, rfl, ((failedWith_eq b err reason).2.2.2.1).trans hreads,
        failedWith_open err reason hcancelled hdelivered⟩
  · rename_i hclosed
    have hdone : ∀ b, s₁.rx.body = some b → b.messageDone = true := by
      intro b hb
      by_contra hnot
      rw [Bool.not_eq_true] at hnot
      refine hclosed ?_
      rw [hb, Option.any_some, hnot]
      rfl
    have hended : ∀ b, s₁.rx.body = some b → b.end_ ≠ .None := fun b hb =>
      (h.body b hb).ended.mpr (hdone b hb)
    refine .settled (show PauseOk s₁.reading (.abandonActiveRx :: rest) from
      ⟨h.toPauseCore.pushAbandon rfl hrest hended, fun hp => ?_, fun b hb => ?_, fun hd => ?_, ?_⟩)
    · exact (h.resumed hp).imp id fun hnone => by cases hnone
    · exact ⟨(h.settled b hb).reads, fun hf => by cases (h.settled b hb).finished hf⟩
    · rcases h.due hd with hloop | hspare
      · cases hloop
      · exact absurd hspare (not_spare hended)
    · refine Phase.ended h hover id (fun hheld => ?_) habandon hfeeder
      obtain ⟨b, hb, hreads, hcancelled, hdelivered, -⟩ := h.held_body hheld
      refine ⟨b, hb, hdone b hb, hreads, ?_⟩
      rw [Body.finished, hcancelled, hdelivered]
      rfl

/-! ## A graceful Close -/

/-- The receiver once data is discarded, above pieces that release the hold. -/
theorem Phase.discarded {r : Reading} {body : Option Body} {k : List Stmt} (h : PauseOk r [])
    (hnone : r.body = none → body = none) (hrelease : k.any Stmt.isRelease = true)
    (habandon : k.any Stmt.isAbandon = true
      ∨ body = r.body ∧ (r.rxActive = true → r.rxEndPending = true)) :
    Phase { r with discard := true, body := body } k := by
  have hbody : r.streamed = true → r.rxActive = true →
      (∃ b, body = some b ∧ b.messageDone = false) ∨ k.any Stmt.isAbandon = true := by
    intro hmode hactive
    rcases habandon with habandon | ⟨rfl, hpending⟩
    · exact .inr habandon
    · left
      cases h.phase with
      | whole hmode' => exact absurd hmode (Bool.eq_false_iff.mp hmode')
      | dropping _ _ _ ha => exact (ha hactive).resolve_right Bool.false_ne_true
      | between _ _ _ _ _ ha => exact absurd hactive (Bool.eq_false_iff.mp ha)
      | receiving _ _ _ _ _ hp => exact absurd (hpending hactive) (Bool.eq_false_iff.mp hp)
      | waiting _ _ _ _ _ _ _ _ b hb _ ha =>
          exact ⟨b, hb, (ha hactive).resolve_right Bool.false_ne_true⟩
      | drained _ _ _ _ _ _ ha => exact (ha hactive).resolve_right Bool.false_ne_true
  by_cases hmode : r.streamed = true
  · exact .dropping hmode rfl (fun _ => hrelease) (hbody hmode)
  · cases h.phase with
    | whole hmode' hb hheld => exact .whole hmode' (hnone hb) hheld
    | dropping hmode' => exact absurd hmode' hmode
    | between hmode' => exact absurd hmode' hmode
    | receiving hmode' => exact absurd hmode' hmode
    | waiting hmode' => exact absurd hmode' hmode
    | drained hmode' => exact absurd hmode' hmode

/-- Data discarded, above the pieces of `queueGracefulClose`. -/
theorem PauseCore.discarded {r : Reading} (h : PauseCore r []) (code : Nat) (reason : Bytes) :
    PauseCore { r with discard := true } [.releaseHold, .pushClose code reason] :=
  ⟨h.notFailed, ⟨h.queue.bytes, h.queue.unready, h.queue.shut⟩,
    ⟨rfl, h.stack.feeders, h.stack.pumps, h.stack.fed, h.stack.pending, fun _ => rfl, fun _ => rfl,
      h.stack.abandoned, h.stack.late⟩, h.body,
    ⟨h.inflater.left, h.inflater.finished, h.inflater.ready⟩⟩

/-- A piece that gives the message up, above those of `queueGracefulClose`. -/
theorem PauseCore.pushAbandonRx {r : Reading} {code : Nat} {reason : Bytes}
    (h : PauseCore r [.releaseHold, .pushClose code reason])
    (hended : ∀ b, r.body = some b → b.end_ ≠ .None) :
    PauseCore r [.abandonRx, .releaseHold, .pushClose code reason] :=
  ⟨h.notFailed, h.queue,
    ⟨h.stack.top, h.stack.feeders, h.stack.pumps, fun _ => rfl, h.stack.pending, h.stack.closing,
      h.stack.release, fun _ => hended, h.stack.late⟩, h.body, h.inflater⟩

/-- A graceful Close begun. -/
theorem PauseInv.queueGracefulClose {s : State} (code : Nat) (reason : Bytes)
    (h : PauseOk s.reading []) : PauseAfter (s.queueGracefulClose code reason) [] := by
  obtain ⟨-, hpumping, -⟩ := h.idle
  unfold State.queueGracefulClose
  split
  · exact .settled h
  extract_lets _ _ s₁
  have hs₁ : s₁.reading = { s.reading with discard := true } := rfl
  have hcore : PauseCore s₁.reading [.releaseHold, .pushClose code reason] :=
    hs₁ ▸ h.toPauseCore.discarded code reason
  have hbody₁ : s₁.rx.body = s.rx.body := rfl
  have hactive₁ : s₁.rx.rxActive = s.rx.rxActive := rfl
  have hpending₁ : s₁.rx.rxEndPending = s.rx.rxEndPending := rfl
  have hpumping₁ : s₁.rx.pumpingInflate = false := hpumping
  clear_value s₁
  -- between entry points no body waits to be finished
  have hnoFinish : ∀ b, s.rx.body = some b → ∀ k, BodySettled b k := by
    intro b hb k
    exact ⟨(h.settled b hb).reads, fun hf => by cases (h.settled b hb).finished hf⟩
  -- a message being received is given up first
  split
  · rename_i hreceiving
    show PauseInv s₁ ((s₁.failBody ECANCELED kSocketClosed ++ [.abandonRx]
      ++ [.releaseHold, .pushClose code reason]) ++ [])
    rw [List.append_nil, List.append_assoc, State.failBody]
    split
    · -- The body of the message being received fails.
      rename_i hopen
      obtain ⟨b, hb, -⟩ := (Option.any_eq_true _ _).mp hopen
      have hsound := hcore.setBody hb
        (failedWith_sound (hcore.body b hb) ECANCELED kSocketClosed)
        (fun _ => (failedWith_eq b ECANCELED kSocketClosed).1)
        fun hp => absurd hp (Bool.eq_false_iff.mp hpumping₁)
      refine PauseInv.bodyFail (k := [.abandonRx, .releaseHold, .pushClose code reason]) hb ?_
        hpumping₁ ?_
      · refine hsound.pushAbandonRx fun b' hb' => ?_
        obtain rfl := Option.some.inj hb'
        exact (failedWith_eq b ECANCELED kSocketClosed).1
      · rw [hs₁]
        refine Phase.discarded (r := s.reading) h (fun hnone => ?_) rfl (.inl rfl)
        cases (hbody₁.symm.trans hb).symm.trans hnone
    · rename_i hclosed
      -- the body failed before, so there is nothing to fail
      have hended : ∀ b, s₁.rx.body = some b → b.end_ ≠ .None := by
        intro b hb
        refine (hcore.body b hb).ended.mpr ?_
        by_contra hnot
        rw [Bool.not_eq_true] at hnot
        refine hclosed ?_
        rw [hb, Option.any_some, hnot]
        rfl
      refine .settled ⟨hcore.pushAbandonRx hended, ?_, ?_, ?_, ?_⟩
      · rw [hs₁]
        exact fun hp => (h.resumed hp).imp id fun hnone => by cases hnone
      · exact fun b hb => hnoFinish b (hbody₁.symm.trans hb) _
      · rw [hs₁]
        intro hd
        exact (h.due hd).imp (fun hnone => by cases hnone) id
      · rw [hs₁]
        exact Phase.discarded (r := s.reading) h id rfl (.inl rfl)
  · rename_i hidle
    refine .settled (k := [.releaseHold, .pushClose code reason]) ⟨hcore, ?_, ?_, ?_, ?_⟩
    · rw [hs₁]
      exact fun hp => (h.resumed hp).imp id fun hnone => by cases hnone
    · exact fun b hb => hnoFinish b (hbody₁.symm.trans hb) _
    · rw [hs₁]
      intro hd
      exact (h.due hd).imp (fun hnone => by cases hnone) id
    · rw [hs₁]
      refine Phase.discarded (r := s.reading) h id rfl (.inr ⟨rfl, fun ha => ?_⟩)
      by_contra hnot
      rw [Bool.not_eq_true] at hnot
      refine hidle ?_
      rw [hactive₁, hpending₁, show s.rx.rxActive = true from ha,
        show s.rx.rxEndPending = false from hnot]
      rfl

/-! ## The readable cancelled -/

/-- The readable cancelled while a message is received: data is discarded after it. -/
theorem Phase.shutAfter {r : Reading} (h : Phase r []) (hmode : r.streamed = true)
    (hmessage : r.inMessage = true) :
    Phase { r with
      readShut := true, discardAfterMessage := true, msgQ := [], msgQBytes := 0, held := false }
      [.checkPause] := by
  have hnotAbandon : ∀ {p : Prop}, ([] : List Stmt).any Stmt.isAbandon = true → p :=
    fun ha => by cases ha
  cases h with
  | whole hmode' => exact absurd hmode (Bool.eq_false_iff.mp hmode')
  | dropping _ hdiscard hheld hactive =>
      exact .dropping hmode hdiscard (fun hh => by cases hh) fun ha =>
        .inl ((hactive ha).elim id hnotAbandon)
  | between _ _ hout => exact absurd hmessage (Bool.eq_false_iff.mp hout)
  | receiving _ hdiscard _ hheld hactive hpending hbody =>
      exact .receiving hmode hdiscard hmessage rfl hactive hpending hbody (fun _ => rfl) rfl
  | waiting _ _ hout => exact absurd hmessage (Bool.eq_false_iff.mp hout)
  | drained _ hdiscard hover hpending hheld hfeeder hactive =>
      exact .drained hmode hdiscard hover hpending rfl rfl fun ha =>
        .inl ((hactive ha).elim id hnotAbandon)

/-- The readable cancelled between messages: data is discarded at once. -/
theorem Phase.shutNow {r : Reading} (h : Phase r [])
    (hout : r.streamed = true → r.inMessage = false) :
    Phase { r with
      readShut := true, discard := true, msgQ := [], msgQBytes := 0, held := false }
      [.checkPause] := by
  have hnotAbandon : ∀ {p : Prop}, ([] : List Stmt).any Stmt.isAbandon = true → p :=
    fun ha => by cases ha
  cases h with
  | whole hmode hbody hheld => exact .whole hmode hbody rfl
  | dropping hmode hdiscard hheld hactive =>
      exact .dropping hmode rfl (fun hh => by cases hh) fun ha =>
        .inl ((hactive ha).elim id hnotAbandon)
  | between hmode _ _ _ _ hactive =>
      exact .dropping hmode rfl (fun hh => by cases hh) fun ha =>
        absurd ha (Bool.eq_false_iff.mp hactive)
  | receiving hmode _ hmessage => exact absurd hmessage (Bool.eq_false_iff.mp (hout hmode))
  | waiting hmode _ _ _ _ _ _ _ b hbody _ hactive =>
      exact .dropping hmode rfl (fun hh => by cases hh) fun ha =>
        .inl ⟨b, hbody, (hactive ha).elim id hnotAbandon⟩
  | drained hmode _ _ _ _ _ hactive =>
      exact .dropping hmode rfl (fun hh => by cases hh) fun ha =>
        .inl ((hactive ha).elim id hnotAbandon)

/-- Shutting the reading side keeps the core of the invariant. -/
theorem PauseCore.shut {r : Reading} (h : PauseCore r []) {after discard : Bool}
    (hdiscard : r.discard = true → discard = true) :
    PauseCore { r with
      readShut := true, discardAfterMessage := after, discard := discard, msgQ := []
      msgQBytes := 0 } [.checkPause] :=
  ⟨h.notFailed, ⟨rfl, (fun _ hm => absurd hm List.not_mem_nil), fun _ => rfl⟩,
    ⟨rfl, h.stack.feeders, h.stack.pumps, fun _ => rfl, h.stack.pending,
      fun hc => hdiscard (h.stack.closing hc), (fun hr => by cases hr), (fun ha => by cases ha),
      h.stack.late⟩,
    h.body, ⟨h.inflater.left, h.inflater.finished, h.inflater.ready⟩⟩

/-- That a body can still be read depends on the body alone. -/
theorem spare_of {r r' : Reading} (h : Spare r) (hbody : r'.body = r.body) : Spare r' := by
  obtain ⟨b, hb, hspare⟩ := h
  exact ⟨b, hbody.trans hb, hspare⟩

/-- The hold released where it stands, above a check of the pause. -/
theorem PauseInv.shutRest {s : State} (hcore : PauseCore s.reading [.checkPause])
    (hsettled : ∀ b, s.rx.body = some b → BodySettled b [.checkPause])
    (hdue : s.reading.inflateDue = true → Spare s.reading)
    (hphase : Phase { s.reading with held := false } [.checkPause]) :
    PauseInv s [.releaseHold, .checkPause] := by
  refine .releaseNow (fun hheld => ?_) fun _ => ?_
  · have hsame : { s.reading with held := false } = s.reading := by
      rw [← hheld]
      rfl
    exact ⟨hcore, fun _ => .inr rfl, hsettled, fun hd => .inr (hdue hd), hsame ▸ hphase⟩
  · exact hcore.released hsettled (fun hd => .inr (hdue hd)) hphase

/-- What remains of `readShutdown` once the receiver is told: an unannounced body it holds is
    finished, so it is dropped and the hold released. -/
theorem PauseInv.shutQueue {s : State}
    (hcore : PauseCore { s.reading with msgQ := [], msgQBytes := 0 } [.checkPause])
    (hsettled : ∀ b, s.rx.body = some b → BodySettled b [.checkPause])
    (hdue : s.reading.inflateDue = true → Spare s.reading)
    (hphase : Phase { s.reading with msgQ := [], msgQBytes := 0, held := false } [.checkPause])
    (hdrop : s.rx.held = true → (s.rx.body.any fun b => b.pairId == 0) = true →
      s.cfg.streamed = true ∧ s.rx.discard = true ∧ s.rx.rxActive = false
        ∧ ∃ b, s.rx.body = some b ∧ b.messageDone = true)
    (events : List WsEvent) (results : List ChannelResult) :
    let s₁ := ({ s with rd.msgQ := [], rd.msgQBytes := 0, rd.readReqs := [] }.postEvents
      events).post results
    PauseAfter (if s₁.rx.held && s₁.rx.body.any (fun b => b.pairId == 0) then
      ({ s₁ with rx.body := s₁.rx.body.map fun b => { b with cancelled := true } },
        [.maybeFinishBody, .releaseHold, .checkPause])
    else (s₁, [.releaseHold, .checkPause])) [] := by
  intro s₁
  split
  -- the body was never announced and is done, so `maybeFinishBody` drops it at once
  · rename_i hunannounced
    rw [Bool.and_eq_true] at hunannounced
    obtain ⟨hmode, hdiscard, hidle, b, hb, hdone⟩ := hdrop hunannounced.1 hunannounced.2
    have hheld : s.rx.held = true := hunannounced.1
    have hfinished : Body.finished { b with cancelled := true } = true := by
      show (b.endDelivered || (true && (b.messageDone || b.end_ == .Error))) = true
      rw [hdone, Bool.true_or, Bool.and_self, Bool.or_true]
    refine PauseInv.next (fun h => by cases h) fun c => ?_
    show PauseAfter (State.maybeFinishBody _) _
    rw [State.maybeFinishBody]
    dsimp only
    rw [show s₁.rx.body = some b from hb, Option.map_some]
    dsimp only
    rw [if_pos hfinished]
    refine PauseInv.next (fun h => by cases h) fun c => ?_
    show PauseAfter (State.releaseHold _) _
    rw [State.releaseHold, if_pos (show s₁.rx.held = true from hheld)]
    have hnone : PauseCore { s.reading with msgQ := [], msgQBytes := 0, body := none }
        [.releaseHold, .checkPause] :=
      ⟨hcore.notFailed, ⟨rfl, hcore.queue.unready, fun _ => rfl⟩,
        ⟨rfl, hcore.stack.feeders, hcore.stack.pumps, fun _ => rfl, hcore.stack.pending,
          hcore.stack.closing, fun _ => hdiscard, (fun ha => by cases ha),
          fun _ ha => absurd ha (Bool.eq_false_iff.mp hidle)⟩,
        (fun _ hb => (by cases hb)),
          ⟨hcore.inflater.left, hcore.inflater.finished, hcore.inflater.ready⟩⟩
    refine PauseInv.settled (hnone.released (fun _ hb => (by cases hb)) (fun hd => ?_)
      (.dropping hmode hdiscard (fun hh => by cases hh) fun ha => ?_))
    · rw [Reading.inflateDue, show s.reading.rxActive = false from hidle] at hd
      cases hd
    · exact absurd ha (Bool.eq_false_iff.mp hidle)
  · exact PauseInv.shutRest (s := s₁) hcore hsettled (fun hd => spare_of (hdue hd) rfl) hphase

/-- The receiver in the middle of a message holds nothing. -/
theorem Phase.not_held_inMessage {r : Reading} (h : Phase r []) (hmode : r.streamed = true)
    (hmessage : r.inMessage = true) : r.held = false := by
  refine Bool.eq_false_iff.mpr fun hheld => ?_
  cases h with
  | whole hmode' => exact absurd hmode (Bool.eq_false_iff.mp hmode')
  | dropping _ _ hh => cases hh hheld
  | between _ _ _ hh => exact absurd hheld (Bool.eq_false_iff.mp hh)
  | receiving _ _ _ hh => exact absurd hheld (Bool.eq_false_iff.mp hh)
  | waiting _ _ hout => exact absurd hmessage (Bool.eq_false_iff.mp hout)
  | drained _ _ _ _ hh => exact absurd hheld (Bool.eq_false_iff.mp hh)

/-- A held message whose end was inflated is not being received any more. -/
theorem Phase.held_idle {r : Reading} (h : Phase r []) (hheld : r.held = true) {b : Body}
    (hb : r.body = some b) (hdone : b.messageDone = true) :
    r.streamed = true ∧ r.rxActive = false := by
  cases h with
  | whole _ _ hh => exact absurd hheld (Bool.eq_false_iff.mp hh)
  | dropping _ _ hh => cases hh hheld
  | between _ _ _ hh => exact absurd hheld (Bool.eq_false_iff.mp hh)
  | receiving _ _ _ hh => exact absurd hheld (Bool.eq_false_iff.mp hh)
  | drained _ _ _ _ hh => exact absurd hheld (Bool.eq_false_iff.mp hh)
  | waiting hmode _ _ _ _ _ _ _ b' hb' _ hactive =>
      obtain rfl : b = b' := Option.some.inj (hb.symm.trans hb')
      refine ⟨hmode, Bool.eq_false_iff.mpr fun ha => ?_⟩
      rcases hactive ha with hnot | hnone
      · exact absurd hdone (Bool.eq_false_iff.mp hnot)
      · cases hnone

/-- The readable cancelled, where no unannounced body is still being inflated. -/
theorem PauseInv.readShutdown {s : State} (h : PauseOk s.reading [])
    (hstall : (s.rx.held && s.rx.body.any fun b => b.pairId == 0 && !b.messageDone) = false) :
    PauseAfter s.readShutdown [] := by
  have hdue : s.reading.inflateDue = true → Spare s.reading := fun hd =>
    (h.due hd).resolve_left Bool.false_ne_true
  have hsettled : ∀ b, s.rx.body = some b → BodySettled b [.checkPause] := fun b hb =>
    ⟨(h.settled b hb).reads, fun hf => by cases (h.settled b hb).finished hf⟩
  unfold State.readShutdown
  have hshut : (State.shutReceiver { s with rd.readShut := true })
      = if s.cfg.streamed && s.rx.decoder.inMessage then
          { s with rd.readShut := true, rx.discardAfterMessage := true }
        else if s.rx.rxActive && !s.cfg.streamed then
          ({ s with rd.readShut := true } : State).discardData.abandonRx
        else ({ s with rd.readShut := true } : State).discardData := rfl
  rw [hshut]
  by_cases hmessage : (s.cfg.streamed && s.rx.decoder.inMessage) = true
  · -- The message being received is discarded to its end; nothing is held.
    rw [if_pos hmessage]
    rw [Bool.and_eq_true] at hmessage
    have hheld := h.phase.not_held_inMessage hmessage.1 hmessage.2
    exact PauseInv.shutQueue
      (s := { s with rd.readShut := true, rx.discardAfterMessage := true })
      (h.toPauseCore.shut id) hsettled (fun hd => spare_of (hdue hd) rfl)
      (h.phase.shutAfter hmessage.1 hmessage.2)
      (fun hh => absurd hh (Bool.eq_false_iff.mp hheld)) _ _
  · rw [if_neg hmessage]
    have hout : s.cfg.streamed = true → s.rx.decoder.inMessage = false := by
      intro hmode
      refine Bool.eq_false_iff.mpr fun hm => hmessage ?_
      rw [hmode, hm]
      rfl
    have hphase := h.phase.shutNow hout
    by_cases habandon : (s.rx.rxActive && !s.cfg.streamed) = true
    · -- A whole message being received is given up.
      rw [if_pos habandon]
      rw [Bool.and_eq_true, Bool.not_eq_true'] at habandon
      have hcore := h.toPauseCore
      have hempty := abandonRx_empty s
      refine PauseInv.shutQueue
        (s := ({ s with rd.readShut := true } : State).discardData.abandonRx)
        ⟨hcore.notFailed, ⟨rfl, (fun _ hm => absurd hm List.not_mem_nil), fun _ => rfl⟩,
          ⟨rfl, hcore.stack.feeders, hcore.stack.pumps, fun _ => rfl, hcore.stack.pending,
            fun _ => rfl, (fun hr => by cases hr), (fun ha => by cases ha),
              fun _ ha => (by cases ha)⟩,
          hcore.body, ⟨fun i hi hin => ?_, fun i hi hf => ?_, fun ha => by cases ha⟩⟩
        hsettled (fun hd => by cases hd) ?_ (fun hheld => ?_) _ _
      · exact absurd hin (Bool.eq_false_iff.mp (hempty i hi).1)
      · exact absurd hf (Bool.eq_false_iff.mp (hempty i hi).2)
      · cases h.phase with
        | whole hmode hbody => exact .whole hmode hbody rfl
        | dropping hmode => exact absurd hmode (Bool.eq_false_iff.mp habandon.2)
        | between hmode => exact absurd hmode (Bool.eq_false_iff.mp habandon.2)
        | receiving hmode => exact absurd hmode (Bool.eq_false_iff.mp habandon.2)
        | waiting hmode => exact absurd hmode (Bool.eq_false_iff.mp habandon.2)
        | drained hmode => exact absurd hmode (Bool.eq_false_iff.mp habandon.2)
      · cases h.phase with
        | whole _ _ hh => exact absurd hheld (Bool.eq_false_iff.mp hh)
        | dropping hmode => exact absurd hmode (Bool.eq_false_iff.mp habandon.2)
        | between hmode => exact absurd hmode (Bool.eq_false_iff.mp habandon.2)
        | receiving hmode => exact absurd hmode (Bool.eq_false_iff.mp habandon.2)
        | waiting hmode => exact absurd hmode (Bool.eq_false_iff.mp habandon.2)
        | drained hmode => exact absurd hmode (Bool.eq_false_iff.mp habandon.2)
    · rw [if_neg habandon]
      refine PauseInv.shutQueue (s := ({ s with rd.readShut := true } : State).discardData)
        (h.toPauseCore.shut fun _ => rfl) hsettled (fun hd => spare_of (hdue hd) rfl) hphase
        (fun hheld hany => ?_) _ _
      obtain ⟨b, hb, hpair⟩ := (Option.any_eq_true _ _).mp hany
      have hdone : b.messageDone = true := by
        rw [show s.rx.held = true from hheld, show s.rx.body = some b from hb, Option.any_some,
          hpair, Bool.true_and, Bool.true_and, Bool.not_eq_false'] at hstall
        exact hstall
      obtain ⟨hmode, hidle⟩ := h.phase.held_idle hheld hb hdone
      exact ⟨hmode, rfl, hidle, b, hb, hdone⟩

/-! ## Bodies and data -/

/-- Making a message ready keeps the queue's length and its count of bytes. -/
theorem makeReady_queue (seq : Nat) (pairId : Int) : ∀ (q : List InMsg) {q' : List InMsg},
    makeReady seq pairId q = some q' → (∀ m ∈ q, m.ready = false → 3 ≤ m.tag) →
    (q'.map InMsg.bytes).sum = (q.map InMsg.bytes).sum ∧ q'.length = q.length
      ∧ ∀ m ∈ q', m.ready = false → 3 ≤ m.tag := by
  intro q
  induction q with
  | nil => exact fun h => by cases h
  | cons m q ih =>
      intro q' h hunready
      rw [makeReady] at h
      split at h
      · rename_i hfound
        obtain rfl := Option.some.inj h
        rw [Bool.and_eq_true, Bool.not_eq_true'] at hfound
        have htag : 3 ≤ m.tag := hunready m List.mem_cons_self hfound.1
        have hlarge : ¬ m.tag ≤ 2 := by omega
        refine ⟨?_, rfl, fun m' hm' hr => ?_⟩
        · rw [List.map_cons, List.map_cons, List.sum_cons, List.sum_cons]
          congr 1
          rw [InMsg.bytes, InMsg.bytes, if_neg hlarge, if_neg hlarge]
        · rcases List.mem_cons.mp hm' with rfl | hm'
          · cases hr
          · exact hunready m' (List.mem_cons_of_mem _ hm') hr
      · obtain ⟨rest, hrest, rfl⟩ := Option.map_eq_some_iff.mp h
        obtain ⟨hsum, hlength, hall⟩ :=
          ih hrest fun m' hm' hr => hunready m' (List.mem_cons_of_mem _ hm') hr
        refine ⟨?_, ?_, fun m' hm' hr => ?_⟩
        · rw [List.map_cons, List.map_cons, List.sum_cons, List.sum_cons, hsum]
        · rw [List.length_cons, List.length_cons, hlength]
        · rcases List.mem_cons.mp hm' with rfl | hm'
          · exact hunready _ List.mem_cons_self hr
          · exact hall m' hm' hr

/-- A body's pair: the body is as it was for reading. -/
theorem PauseOk.setPair {r : Reading} {k : List Stmt} (h : PauseOk r k) {b : Body}
    (hb : r.body = some b) (pairId : Int) :
    PauseOk { r with body := some { b with pairId := pairId } } k := by
  obtain ⟨hbytes, hended, hdelivered, hcancelled⟩ := h.body b hb
  have hspare : Spare r → Spare { r with body := some { b with pairId := pairId } } := by
    rintro ⟨b', hb', hrest⟩
    obtain rfl : b = b' := Option.some.inj (hb.symm.trans hb')
    exact ⟨_, rfl, hrest⟩
  refine ⟨h.toPauseCore.setBody hb ⟨hbytes, hended, hdelivered, hcancelled⟩ id
    (fun hp ha hz => (h.stack.late hp ha hz).imp id ?_), fun hp => ?_, fun b' hb' => ?_,
    fun hd => (h.due hd).imp id hspare, h.phase.setBody hb rfl fun _ hr hf => ⟨hr, hf⟩⟩
  · rintro ⟨b', hb', hrest⟩
    obtain rfl : b = b' := Option.some.inj (hb.symm.trans hb')
    exact hrest
  · refine (h.resumed hp).imp (Reading.high_setBody hb (Nat.le_refl _)) id
  · obtain rfl := Option.some.inj hb'
    exact ⟨(h.settled b hb).reads, (h.settled b hb).finished⟩

/-- `bodyReady` keeps the invariant. -/
theorem PauseInv.bodyReady {s : State} (h : PauseOk s.reading []) (seq : Nat) (pairId : Int) :
    PauseAfter (s.bodyReady seq pairId) [] := by
  rw [State.bodyReady]
  split
  · exact .settled h
  · rename_i q hready
    obtain ⟨hsum, hlength, hall⟩ := makeReady_queue seq pairId s.rd.msgQ hready h.queue.unready
    have hqueue : QueueSound { s.reading with msgQ := q } :=
      { bytes := h.queue.bytes.trans hsum.symm
        unready := hall
        shut := fun hs => by
          rw [show s.rd.msgQ = [] from h.queue.shut hs] at hlength
          exact List.length_eq_zero_iff.mp hlength }
    have hpush : PauseOk s.reading [.deliverReads] :=
      h.kinds (.append [.deliverReads] [] rfl) fun _ => .inr rfl
    have hq : PauseOk { s.reading with msgQ := q, msgQBytes := s.rd.msgQBytes } [.deliverReads] :=
      hpush.setQueue hqueue rfl
    cases hb : s.rx.body with
    | none =>
        have hsame : State.reading { s with
            rd.msgQ := q
            rx.body := s.rx.body.map fun b =>
              if b.seq = seq then { b with pairId := pairId } else b }
            = { s.reading with msgQ := q, msgQBytes := s.rd.msgQBytes } := by
          show Reading.mk _ _ _ _ _ _ _ _ _ _ _ _ _ _ _ _ _ _ _ _ _
            = Reading.mk _ _ _ _ _ _ _ _ _ _ _ _ _ _ _ _ _ _ _ _ _
          rw [hb]
          congr 1
          exact hb.symm
        rw [← hb]
        exact .settled (hsame ▸ hq)
    | some b =>
        rw [Option.map_some]
        split
        · exact .settled (hq.setPair hb pairId)
        · have hsame : State.reading { s with rd.msgQ := q, rx.body := some b }
              = { s.reading with msgQ := q, msgQBytes := s.rd.msgQBytes } := by
            rw [← hb]
            rfl
          exact .settled (hsame ▸ hq)

/-- A read of the body asked for. -/
theorem PauseInv.bodyReqRead {s : State} (h : PauseOk s.reading []) (seq chan token : Nat) :
    PauseAfter (s.bodyReqRead seq chan token) [] := by
  obtain ⟨-, hpumping, -⟩ := h.idle
  unfold State.bodyReqRead
  dsimp only
  split
  · rename_i hopen
    obtain ⟨b, hb, -⟩ := (Option.any_eq_true _ _).mp hopen
    obtain ⟨hbytes, hended, hdelivered, hcancelled⟩ := h.body b hb
    rw [hb, Option.map_some]
    refine PauseInv.deliverBody rfl ?_ (fun _ => .inr (.inl hpumping)) ?_
    · refine h.toPauseCore.setBody hb ⟨hbytes, hended, hdelivered, hcancelled⟩ id fun hp => ?_
      exact absurd hp (Bool.eq_false_iff.mp hpumping)
    · exact h.phase.setBody hb rfl fun ha => by cases ha
  · exact .settled h

/-- The body cancelled: what is left of its message is inflated and dropped. -/
theorem PauseInv.bodyCancel {s : State} (h : PauseOk s.reading []) (seq : Nat) :
    PauseAfter (s.bodyCancel seq) [] := by
  obtain ⟨-, hpumping, -⟩ := h.idle
  unfold State.bodyCancel
  cases hb : s.rx.body with
  | none => exact .settled h
  | some b =>
      dsimp only
      split
      · exact .settled h
      · obtain ⟨hbytes, hended, hdelivered, hcancelled⟩ := h.body b hb
        let b' : Body :=
          { b with cancelled := true, q := [], qBytes := 0, partialText := [], reads := [] }
        have hsound : PauseCore { s.reading with body := some b' } [] := by
          refine h.toPauseCore.setBody hb ⟨rfl, hended, fun hd => ⟨rfl, (hdelivered hd).2⟩,
            fun _ => rfl⟩ id fun hp => ?_
          exact absurd hp (Bool.eq_false_iff.mp hpumping)
        have hcore : PauseCore { s.reading with body := some b' } [.maybeFinishBody, .checkPause] :=
          (hsound.push (p := .checkPause) rfl).push rfl
        have hsettled : ∀ b₁, some b' = some b₁ →
            BodySettled b₁ [.maybeFinishBody, .checkPause] := by
          intro b₁ hb₁
          obtain rfl := Option.some.inj hb₁
          exact ⟨fun hr => absurd rfl hr, fun _ => rfl⟩
        have hcancel : Phase { s.reading with body := some b' } [] :=
          h.phase.setBody hb rfl fun ha => by cases ha
        have hphase : Phase { s.reading with body := some b' } [.maybeFinishBody, .checkPause] :=
          hcancel.frame ((PhaseKinds.push [] (p := .checkPause) rfl).trans (.push _ rfl))
        split
        · refine PauseInv.pumpInflate hcore (fun _ => .inr rfl) hsettled
            (fun _ => .inr (.inl hpumping))
            hphase fun hs => ?_
          exact absurd (h.phase.streamed hb) (Bool.eq_false_iff.mp hs)
        · rename_i hidle
          refine .settled (k := [.maybeFinishBody, .checkPause])
            ⟨hcore, fun _ => .inr rfl, hsettled, fun hd => ?_, hphase⟩
          rw [Reading.inflateDue, Bool.and_eq_true] at hd
          exact absurd hd.1 hidle

/-- Data from the port. -/
theorem PauseInv.portData {s : State} {k : List Stmt} (c : Choice) (data : Bytes)
    (h : PauseOk s.reading k) (hopen : s.out.inputOver = false) :
    PauseAfter (s.portData c data) k := by
  unfold State.portData
  dsimp only
  split
  · rename_i hdone
    exact .past (.inl hdone)
  split
  · -- The data waits until the input before it is processed.
    generalize s.rx.pendingIn ++ data = pendingIn
    have hkinds : PhaseKinds k (.processInput :: k) := ⟨rfl, rfl, id, id, id⟩
    refine .settled
      (show PauseOk { s.reading with pendingIn := pendingIn } (.processInput :: k) from
      ⟨⟨h.notFailed, ⟨h.queue.bytes, h.queue.unready, h.queue.shut⟩, ?_, h.body,
        ⟨h.inflater.left, h.inflater.finished, h.inflater.ready⟩⟩, h.resumed, fun b hb => ?_, h.due,
          ?_⟩)
    · exact ⟨h.stack.top, h.stack.feeders, h.stack.pumps, h.stack.fed, fun _ => .inr (.inr rfl),
        h.stack.closing, h.stack.release, h.stack.abandoned, h.stack.late⟩
    · exact ⟨(h.settled b hb).reads, (h.settled b hb).finished⟩
    · have hphase : Phase s.reading (.processInput :: k) := h.phase.frame hkinds
      cases hphase with
      | whole hmode hbody hh => exact .whole hmode hbody hh
      | dropping hmode hdiscard hh hactive => exact .dropping hmode hdiscard hh hactive
      | between hmode hdiscard hmessage hh hbody hactive hafter hshut hno =>
          exact .between hmode hdiscard hmessage hh hbody hactive hafter hshut hno
      | receiving hmode hdiscard hmessage hh hactive hpending hbody hshut hno =>
          exact .receiving hmode hdiscard hmessage hh hactive hpending hbody hshut hno
      | waiting hmode hdiscard hmessage hh hafter hshut hmid hturn b hbody hend hactive hno =>
          exact .waiting hmode hdiscard hmessage hh hafter hshut hmid hturn b hbody hend hactive hno
      | drained hmode hdiscard hover => exact absurd hover (Bool.eq_false_iff.mp hopen)
  · rename_i hidle
    simp only [Bool.not_eq_true, Bool.or_eq_false_iff, Bool.not_eq_false'] at hidle
    obtain ⟨⟨hprocessing, hheld⟩, hempty⟩ := hidle
    have hnil : s.rx.pendingIn = [] := List.isEmpty_iff.mp hempty
    have hsame : { s.reading with pendingIn := [] } = s.reading := by
      rw [← hnil]
      rfl
    refine .settled (show PauseOk { s.reading with
      processing := true, stopped := false, pendingIn := s.rx.pendingIn }
      (.feedTurn .portData data :: k) from PauseOk.startFeed (hsame.symm ▸ h) hprocessing rfl _
        h.phase hheld fun hover => absurd hover (Bool.eq_false_iff.mp hopen))

/-! ## Entry points -/

/-- Queueing the close frame keeps past. -/
theorem Past.queueGracefulClose {s : State} (h : Past s) (code : Nat) (reason : Bytes) :
    Past (s.queueGracefulClose code reason).1 := by
  unfold State.queueGracefulClose
  split
  · exact h
  · exact h

theorem Past.pongTimer {s : State} (h : Past s) (c : Choice) : Past (s.pongTimer c).1 := by
  unfold State.pongTimer
  extract_lets t _ s₁ _
  have h₁ : Past s₁ := h.of_eq rfl rfl
  split
  · exact h
  · split
    · split
      · exact h₁.of_eq rfl rfl
      · exact h₁.failWith _ _ _ _ _ _
    · exact h₁

theorem emplaceStream_past {s : State} (h : Past s) (seq : Nat) (st : OutStream) :
    Past (s.emplaceStream seq st) := by
  rw [State.emplaceStream]
  split <;> exact h

/-- Input stays done, and the transport gone. -/
theorem Past.enter {s : State} (h : Past s) (c : Choice) (e : Entry) : Past (s.enter c e).1 := by
  -- no entry point takes input up again or brings the transport back
  cases e with
  | attach => exact h
  | detachPort => exact .inr rfl
  | portData data => exact h.quiet (portData_quiet c s data)
  | portEof =>
      exact Past.quiet (s := { s with out.inputOver := true }) h (portEof_quiet _)
  | portError err reason => exact h
  | portWritable => exact h.quiet (pumpWrites_quiet s)
  | portTimer timer =>
      have h' : Past { s with out.deadline := Function.update s.out.deadline timer 0 } := h
      cases timer with
      | heartbeat => exact h'.quiet (heartbeatTimer_quiet c _)
      | pong => exact h'.pongTimer c
      | closeHandshake => exact h
  | portClosed => exact .inr rfl
  | written i err =>
      rw [State.enter]
      split
      · exact h
      · exact Past.complete (s := { s with out.writes := s.out.writes.eraseIdx i }) h _ _
  | reqRead chan token => exact h.quiet (reqRead_quiet s chan token)
  | readClose chan token => exact h
  | readShutdown => exact h.quiet (readShutdown_quiet s)
  | reqWrite chan token tag bytes =>
      show Past (s.reqWrite chan token tag bytes).1
      rw [State.reqWrite]
      split <;> exact h
  | writeClose chan token =>
      show Past (s.writeClose chan token).1
      unfold State.writeClose
      dsimp only
      split
      · exact h
      · exact Past.queueGracefulClose (s := { s with
          wr.closeWaiters := s.wr.closeWaiters ++ [{ chan := chan, token := token }] }) h _ _
  | writeShutdown =>
      show Past s.writeShutdown.1
      rw [State.writeShutdown]
      split <;> exact h
  | bodyReady seq pairId => exact h.quiet (bodyReady_quiet s seq pairId)
  | bodyReqRead seq chan token => exact h.quiet (bodyReqRead_quiet s seq chan token)
  | bodyClose chan token => exact h
  | bodyCancel seq => exact h.quiet (bodyCancel_quiet s seq)
  | openOutgoing seq opcode =>
      show Past (s.openOutgoing seq opcode).1
      unfold State.openOutgoing
      dsimp only
      split
      · exact emplaceStream_past (s := { s with out.opened := s.out.opened ++ [seq] }) h _ _
      · exact emplaceStream_past (s := { s with out.opened := s.out.opened ++ [seq] }) h _ _
  | outWrite seq chan token bytes =>
      show Past (s.outWrite seq chan token bytes).1
      unfold State.outWrite
      split
      · exact h
      · split <;> exact h
  | outClose seq chan token =>
      show Past (s.outClose seq chan token).1
      unfold State.outClose
      split
      · dsimp only
        split <;> exact h
      · exact h
  | outAbort seq =>
      show Past (s.outAbort seq).1
      unfold State.outAbort
      split
      · exact h
      · split <;> exact h
  | startClose code reason token =>
      show Past (s.startClose code reason token).1
      unfold State.startClose
      split
      · exact h
      · exact Past.queueGracefulClose (s := { s with wr.closeOps := s.wr.closeOps ++ [token] })
          h _ _
  | startPing token => exact h.quiet (startPing_quiet c s token)
  | abortNow =>
      show Past (if s.live then s.portAbort else s.portClosed : Exec).1
      split
      · exact h
      · exact .inr rfl

/-! ## Entry points that reading does not depend on -/

theorem openOutgoing_plain (s : State) (seq opcode : Nat) :
    Plain s (s.openOutgoing seq opcode) := by
  have hemplace : ∀ (s : State) (st : OutStream), (s.emplaceStream seq st).reading = s.reading := by
    intro s st
    rw [State.emplaceStream]
    split <;> rfl
  unfold State.openOutgoing
  dsimp only
  split
  · exact ⟨hemplace { s with out.opened := s.out.opened ++ [seq] } _, rfl⟩
  · exact ⟨hemplace { s with out.opened := s.out.opened ++ [seq] } _, rfl⟩

/-- Writing to an outgoing body leaves the reading side alone. -/
theorem outWrite_plain (s : State) (seq chan token : Nat) (bytes : Bytes) :
    Plain s (s.outWrite seq chan token bytes) := by
  unfold State.outWrite
  split
  · exact ⟨rfl, rfl⟩
  · split <;> exact ⟨rfl, rfl⟩

theorem outClose_plain (s : State) (seq chan token : Nat) :
    Plain s (s.outClose seq chan token) := by
  unfold State.outClose
  split
  · refine ⟨?_, rfl⟩
    show (if _ then _ else _ : State).reading = _
    split <;> rfl
  · exact ⟨rfl, rfl⟩

/-- The heartbeat leaves the reading side alone. -/
theorem heartbeatTimer_plain (c : Choice) (s : State) : Plain s (s.heartbeatTimer c) := by
  unfold State.heartbeatTimer
  dsimp only
  split
  · exact ⟨rfl, rfl⟩
  · split <;> exact ⟨rfl, rfl⟩

theorem attach_plain (c : Choice) (s : State) : Plain s (s.attach c) := by
  refine ⟨rfl, ?_⟩
  show List.all (_ ++ _) _ = true
  split <;> rfl

theorem startPing_plain (c : Choice) (s : State) (token : Nat) : Plain s (s.startPing c token) := by
  unfold State.startPing
  dsimp only
  split <;> exact ⟨rfl, rfl⟩

/-- A request to write leaves the reading side alone. -/
theorem reqWrite_plain (s : State) (chan token : Nat) (tag : Int) (bytes : Bytes) :
    Plain s (s.reqWrite chan token tag bytes) := by
  rw [State.reqWrite]
  split <;> exact ⟨rfl, rfl⟩

theorem reqRead_plain (s : State) (chan token : Nat) : Plain s (s.reqRead chan token) := by
  unfold State.reqRead
  dsimp only
  split <;> exact ⟨rfl, rfl⟩

/-- A write that completes leaves the reading side alone. -/
theorem written_plain (c : Choice) (s : State) (i err : Nat) :
    Plain s (s.enter c (.written i err)) := by
  rw [State.enter]
  split
  · exact ⟨rfl, rfl⟩
  · exact (complete_plain { s with out.writes := s.out.writes.eraseIdx i } _ err).trans rfl

/-- A failure of the connection asked for. -/
theorem PauseInv.fails {s : State} {r : Reading} {k : List Stmt} {code : Nat} {text : String}
    (h : PauseOk r k) (hfailed : r.failed = s.cl.failed) :
    PauseAfter (s, [.failConnection code text]) k := by
  refine .failing fun hf => ?_
  rw [← hfailed, h.notFailed] at hf
  cases hf

/-- The pong timer keeps the invariant. -/
theorem PauseInv.pongTimer {s : State} {k : List Stmt} (c : Choice) (h : PauseOk s.reading k) :
    PauseAfter (s.pongTimer c) k := by
  unfold State.pongTimer
  dsimp only
  split
  · exact .settled h
  · have hpush : PauseOk s.reading (.armPongTimer :: k) :=
      h.kinds (.append [.armPongTimer] k rfl) h.resumed
    split
    · split
      · exact .settled (h.kinds (.append [.armHeartbeat _, .armPongTimer] k rfl) h.resumed)
      · unfold State.heartbeatTimeout State.failWith
        split
        · exact .settled h
        · exact .past (Past.setCloseInfo (.inl rfl) _ _ _)
    · exact .settled hpush

/-- The deadline of the closing handshake cleared. -/
theorem PauseOk.clearHandshake {r : Reading} (h : PauseOk r []) :
    PauseOk { r with handshake := 0 } [] :=
  ⟨⟨h.notFailed, ⟨h.queue.bytes, h.queue.unready, h.queue.shut⟩,
    ⟨h.stack.top, h.stack.feeders, h.stack.pumps, h.stack.fed, h.stack.pending,
      (fun hc => hc.elim (fun hne => absurd rfl hne) fun hp => by cases hp), h.stack.release,
      h.stack.abandoned, h.stack.late⟩, h.body,
    ⟨h.inflater.left, h.inflater.finished, h.inflater.ready⟩⟩, h.resumed, h.settled, h.due,
    h.phase.frame (SameKinds.refl []).phase⟩

/-- An entry point called between entry points. -/
theorem PauseInv.enterIdle {s : State} {e : Entry} (c : Choice) (h : PauseInv s [])
    (hpromised : e.Promised s) (hstall : e = .readShutdown →
      (s.rx.held && s.rx.body.any fun b => b.pairId == 0 && !b.messageDone) = false) :
    PauseAfter (s.enter c e) [] := by
  cases h with
  | past hpast => exact .past (Past.enter hpast c e)
  | settled h =>
      have hover : PauseOk (State.reading { s with out.inputOver := true }) [] := h.setInputOver
      -- an entry point is quiet about reading, or ends the input, or has a lemma of its own above
      cases e with
      | attach => exact .settled (h.after (attach_plain c s))
      | detachPort => exact .past (.inr rfl)
      | portData data => exact PauseInv.portData c data h hpromised
      | portEof =>
          show PauseAfter (State.portEof { s with out.inputOver := true }) []
          rw [State.portEof]
          split
          · exact .settled (hover.kinds (.append [.eofClose] [] rfl) hover.resumed)
          · exact PauseInv.ended (k := [.eofClose]) _ _ hover rfl (.inl rfl)
      | portError err reason => exact PauseInv.ended (k := [.errorAbort]) _ _ hover rfl (.inl rfl)
      | portWritable => exact .settled (h.after (pumpWrites_plain s))
      | portTimer timer =>
          cases timer with
          | heartbeat =>
              let s' := { s with out.deadline := Function.update s.out.deadline .heartbeat 0 }
              exact .settled (PauseOk.after (s := s') h (heartbeatTimer_plain c s'))
          | pong =>
              let s' := { s with out.deadline := Function.update s.out.deadline .pong 0 }
              exact PauseInv.pongTimer (s := s') c h
          | closeHandshake =>
              let s' := { s with out.deadline := Function.update s.out.deadline .closeHandshake 0 }
              -- the timer runs only after a Close was sent, when data is discarded
              have hdiscard : s.rx.discard = true := h.stack.closing (.inl hpromised)
              exact PauseInv.ended (s := s') (k := [.timeoutAbort]) _ _ h.clearHandshake rfl
                (.inr hdiscard)
      | portClosed => exact .past (.inr rfl)
      | written i err => exact .settled (h.after (written_plain c s i err))
      | reqRead chan token => exact .settled (h.after (reqRead_plain s chan token))
      | readClose chan token => exact .settled (h.after (e := (_, [])) ⟨rfl, rfl⟩)
      | readShutdown => exact PauseInv.readShutdown h (hstall rfl)
      | reqWrite chan token tag bytes =>
          exact .settled (h.after (reqWrite_plain s chan token tag bytes))
      | writeClose chan token =>
          show PauseAfter (s.writeClose chan token) []
          unfold State.writeClose
          split
          · exact .settled h
          · extract_lets waiter _ s₁
            exact PauseInv.queueGracefulClose (s := s₁) _ _ h
      | writeShutdown =>
          show PauseAfter s.writeShutdown []
          rw [State.writeShutdown]
          split
          · exact .settled h
          · exact PauseInv.fails h rfl
      | bodyReady seq pairId => exact PauseInv.bodyReady h seq pairId
      | bodyReqRead seq chan token => exact PauseInv.bodyReqRead h seq chan token
      | bodyClose chan token => exact .settled (h.after (e := (_, [])) ⟨rfl, rfl⟩)
      | bodyCancel seq => exact PauseInv.bodyCancel h seq
      | openOutgoing seq opcode => exact .settled (h.after (openOutgoing_plain s seq opcode))
      | outWrite seq chan token bytes =>
          exact .settled (h.after (outWrite_plain s seq chan token bytes))
      | outClose seq chan token => exact .settled (h.after (outClose_plain s seq chan token))
      | outAbort seq =>
          show PauseAfter (s.outAbort seq) []
          unfold State.outAbort
          split
          · exact .settled h
          · split
            · exact PauseInv.fails h rfl
            · exact .settled (h.after (s := s) (e := (_, [.pumpWrites])) ⟨rfl, rfl⟩)
      | startClose code reason token =>
          show PauseAfter (s.startClose code reason token) []
          unfold State.startClose
          split
          · exact .settled h
          · exact PauseInv.queueGracefulClose
              (s := { s with wr.closeOps := s.wr.closeOps ++ [token] }) _ _ h
      | startPing token => exact .settled (h.after (startPing_plain c s token))
      | abortNow =>
          show PauseAfter (if s.live then s.portAbort else s.portClosed) []
          split
          · exact .settled (hover.kinds (.append [.inPort] [] rfl) hover.resumed)
          · exact .past (.inr rfl)

/-- A callback of the port. -/
theorem PauseInv.enterCallback {s : State} {k : List Stmt} {e : Entry} (c : Choice)
    (h : PauseInv s (.inPort :: k)) (hcallback : e.isCallback = true) (hpromised : e.Promised s) :
    PauseAfter (s.enter c e) (.inPort :: k) := by
  generalize hstack : Stmt.inPort :: k = stack at h ⊢
  cases h with
  | past hpast => exact .past (Past.enter hpast c e)
  | failing => cases (List.cons.inj hstack).1
  | next hp => exact absurd (List.cons.inj hstack).1.symm hp
  | settled h =>
      cases e with
      | portData data => exact PauseInv.portData c data h hpromised
      | portWritable => exact .settled (h.after (pumpWrites_plain s))
      | written i err => exact .settled (h.after (written_plain c s i err))
      | portClosed => exact .past (.inr rfl)
      | _ => cases hcallback

/-! ## Runs -/

/-- The invariant holds at the start. -/
theorem pauseInv_start (cfg : WsConfig) :
    PauseInv (Config.start cfg).s (Config.start cfg).stack := by
  have hnone : ∀ {p : Prop} {b : Body}, (none : Option Body) = some b → p := fun h => by cases h
  refine .settled ⟨⟨rfl, ⟨rfl, (fun _ hm => absurd hm List.not_mem_nil), fun _ => rfl⟩,
    ⟨rfl, rfl, rfl, fun _ => rfl, fun hne => absurd rfl hne, ?_, (fun hr => by cases hr),
      (fun ha => by cases ha), fun _ ha => (by cases ha)⟩, fun _ => hnone,
    ⟨(fun _ hi => (by cases hi)), (fun _ hi => (by cases hi)), fun ha => by cases ha⟩⟩,
    (fun hp => by cases hp), fun _ => hnone, (fun hd => by cases hd), ?_⟩
  · exact fun hc => hc.elim (fun hne => absurd rfl hne) fun hp => by cases hp
  · by_cases hmode : cfg.streamed = true
    · exact .between hmode rfl rfl rfl rfl rfl rfl rfl rfl
    · exact .whole (Bool.eq_false_iff.mpr hmode) rfl rfl

/-- Every run without a stall keeps `PauseInv`. -/
theorem Runs.pauseInv {cfg : WsConfig} {c : Config} (hrun : Runs NoStall (Config.start cfg) c) :
    PauseInv c.s c.stack := by
  refine hrun.invariant (I := fun c => PauseInv c.s c.stack) (Config.move_of_exec ?_ ?_)
    (pauseInv_start cfg)
  · intro c e ch hinv hallows hok
    obtain ⟨hstall, hpromised⟩ := hok
    rcases hallows with ⟨hnil, -⟩ | ⟨hhead, hcallback⟩
    · rw [hnil] at hinv ⊢
      refine PauseInv.enterIdle ch hinv (hpromised e rfl) fun he => ?_
      rw [he] at hstall
      exact hstall
    · obtain ⟨k, hk⟩ : ∃ k, c.stack = .inPort :: k := by
        cases hstack : c.stack with
        | nil =>
            rw [hstack] at hhead
            cases hhead
        | cons p k =>
            rw [hstack, List.head?_cons, Option.some.injEq] at hhead
            exact ⟨k, by rw [hhead]⟩
      rw [hk] at hinv ⊢
      exact PauseInv.enterCallback ch hinv hcallback (hpromised e rfl)
  · intro c p k ch hstack hinv hok
    obtain ⟨hstall, -⟩ := hok
    refine PauseInv.exec ch hinv fun code text hp hposted => ?_
    rw [stalls, hstack, hp] at hstall
    by_contra hopen
    rw [Bool.not_eq_true] at hopen
    rw [hposted, hopen] at hstall
    cases hstall

end WsCore

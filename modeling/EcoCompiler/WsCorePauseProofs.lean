import EcoCompiler.WsCorePause

/-! # Why reading is paused: the pieces that run at once

    * `WsCore.PauseOk.mild` — a piece of no particular kind keeps `PauseOk`;
    * `WsCore.PauseInv.deliverBody`, `WsCore.PauseInv.pumpInflate`,
      `WsCore.PauseInv.messageComplete`, `WsCore.PauseInv.deliverData`,
      `WsCore.PauseInv.bodyFail` — from what each of these pieces is pushed with, `PauseInv`
      holds. -/

namespace WsCore

open State

/-! ## Stacks -/

/-- A stack whose pieces of a particular kind are those of another. -/
structure SameKinds (k k' : List Stmt) : Prop where
  top : k'.any Stmt.isTop = k.any Stmt.isTop
  feeders : k'.countP Stmt.isFeeder = k.countP Stmt.isFeeder
  feeder : k'.any Stmt.isFeeder = k.any Stmt.isFeeder
  midFeed : k'.any Stmt.isMidFeed = k.any Stmt.isMidFeed
  feedTurn : k'.any Stmt.isFeedTurn = k.any Stmt.isFeedTurn
  pumps : k'.countP Stmt.isPump = k.countP Stmt.isPump
  loop : k'.any Stmt.isLoop = k.any Stmt.isLoop
  fed : fedPumps k' = fedPumps k
  finish : k'.any Stmt.isFinish = k.any Stmt.isFinish
  release : k'.any Stmt.isRelease = k.any Stmt.isRelease
  input : k'.any Stmt.isInput = k.any Stmt.isInput
  abandon : k'.any Stmt.isAbandon = k.any Stmt.isAbandon
  pushClose : k'.any Stmt.isPushClose = k.any Stmt.isPushClose

/-- Every stack has the kinds of itself. -/
theorem SameKinds.refl (k : List Stmt) : SameKinds k k :=
  ⟨rfl, rfl, rfl, rfl, rfl, rfl, rfl, rfl, rfl, rfl, rfl, rfl, rfl⟩

theorem SameKinds.symm {k k' : List Stmt} (h : SameKinds k k') : SameKinds k' k :=
  ⟨h.top.symm, h.feeders.symm, h.feeder.symm, h.midFeed.symm, h.feedTurn.symm, h.pumps.symm,
    h.loop.symm, h.fed.symm, h.finish.symm, h.release.symm, h.input.symm, h.abandon.symm,
    h.pushClose.symm⟩

theorem SameKinds.trans {k k' k'' : List Stmt} (h : SameKinds k k') (h' : SameKinds k' k'') :
    SameKinds k k'' :=
  ⟨h'.top.trans h.top, h'.feeders.trans h.feeders, h'.feeder.trans h.feeder,
    h'.midFeed.trans h.midFeed, h'.feedTurn.trans h.feedTurn, h'.pumps.trans h.pumps,
    h'.loop.trans h.loop, h'.fed.trans h.fed, h'.finish.trans h.finish,
    h'.release.trans h.release, h'.input.trans h.input, h'.abandon.trans h.abandon,
    h'.pushClose.trans h.pushClose⟩

/-- A light piece is of none of the kinds that the invariant asks about. -/
theorem Stmt.isLight_kinds {p : Stmt} (h : p.isLight = true) :
    p.isFeeder = false ∧ p.isMidFeed = false ∧ p.isFeedTurn = false ∧ p.isPump = false
      ∧ p.isLoop = false ∧ p.isInput = false ∧ p.isAbandon = false ∧ p.isTop = false
      ∧ p.isPushClose = false ∧ p.isRelease = false := by
  simp only [Stmt.isLight, Bool.and_eq_true, Bool.not_eq_true'] at h
  obtain ⟨⟨⟨⟨⟨⟨hfeeder, hpump⟩, hinput⟩, habandon⟩, htop⟩, hclose⟩, hrelease⟩ := h
  refine ⟨hfeeder, ?_, ?_, hpump, ?_, hinput, habandon, htop, hclose, hrelease⟩
  · cases p <;> first | rfl | exact Bool.noConfusion hfeeder
  · cases p <;> first | rfl | exact Bool.noConfusion hfeeder
  · cases p <;> first | rfl | exact Bool.noConfusion hpump

/-- A mild piece is a light one that finishes nothing. -/
theorem Stmt.isMild_kinds {p : Stmt} (h : p.isMild = true) :
    p.isLight = true ∧ p.isFinish = false := by
  simp only [Stmt.isMild, Bool.and_eq_true, Bool.not_eq_true'] at h
  exact h

theorem any_cons_of_false {f : Stmt → Bool} {p : Stmt} {k : List Stmt} (h : f p = false) :
    (p :: k).any f = k.any f := by
  rw [List.any_cons, h, Bool.false_or]

theorem countP_cons_of_false {f : Stmt → Bool} {p : Stmt} {k : List Stmt} (h : f p = false) :
    (p :: k).countP f = k.countP f :=
  List.countP_cons_of_neg (Bool.eq_false_iff.mp h)

/-- A mild piece on top changes no kind. -/
theorem SameKinds.cons {p : Stmt} (k : List Stmt) (h : p.isMild = true) :
    SameKinds k (p :: k) := by
  obtain ⟨hlight, hfinish⟩ := Stmt.isMild_kinds h
  obtain ⟨hfeeder, hmid, hturn, hpump, hloop, hinput, habandon, htop, hclose, hrelease⟩ :=
    Stmt.isLight_kinds hlight
  refine ⟨any_cons_of_false htop, countP_cons_of_false hfeeder, any_cons_of_false hfeeder,
    any_cons_of_false hmid, any_cons_of_false hturn, countP_cons_of_false hpump,
    any_cons_of_false hloop, ?_, any_cons_of_false hfinish, any_cons_of_false hrelease,
    any_cons_of_false hinput, any_cons_of_false habandon, any_cons_of_false hclose⟩
  rw [fedPumps, hpump, Bool.not_false, Bool.true_or, Bool.true_and]

/-- Any number of mild pieces on top change no kind. -/
theorem SameKinds.append (ks k : List Stmt) (h : ks.all Stmt.isMild = true) :
    SameKinds k (ks ++ k) := by
  induction ks with
  | nil => exact .refl k
  | cons p ks ih =>
      rw [List.all_cons, Bool.and_eq_true] at h
      exact (ih h.2).trans (.cons _ h.1)

/-- What `Phase` needs of a change of the stack. -/
structure PhaseKinds (k k' : List Stmt) : Prop where
  release : k'.any Stmt.isRelease = k.any Stmt.isRelease
  abandon : k'.any Stmt.isAbandon = k.any Stmt.isAbandon
  midFeed : k.any Stmt.isMidFeed = false → k'.any Stmt.isMidFeed = false
  feedTurn : k'.any Stmt.isFeedTurn = true → k.any Stmt.isFeedTurn = true
  feeder : k.any Stmt.isFeeder = false → k'.any Stmt.isFeeder = false

/-- Stacks of the same kinds are in the same phase. -/
theorem SameKinds.phase {k k' : List Stmt} (h : SameKinds k k') : PhaseKinds k k' :=
  ⟨h.release, h.abandon, fun hm => h.midFeed.trans hm,
    fun ht => h.feedTurn.symm.trans ht, fun hf => h.feeder.trans hf⟩

/-- A change that leaves the receiver where it stands. -/
theorem Phase.frame {r : Reading} {k k' : List Stmt} (h : Phase r k) (hk : PhaseKinds k k')
    {processing pumping paused failed : Bool} {inflater : Option Inflater} {msgQ : List InMsg}
    {msgQBytes : Nat} {handshake : Int} :
    Phase { r with
      processing := processing, pumpingInflate := pumping, paused := paused, failed := failed,
      inflater := inflater, msgQ := msgQ, msgQBytes := msgQBytes, handshake := handshake } k' := by
  cases h with
  | whole hmode hbody hheld => exact .whole hmode hbody hheld
  | dropping hmode hdiscard hheld hactive =>
      refine .dropping hmode hdiscard (fun hh => hk.release.trans (hheld hh)) fun ha => ?_
      rw [hk.abandon]
      exact hactive ha
  | between hmode hdiscard hmessage hheld hbody hactive hafter hshut habandon =>
      exact .between hmode hdiscard hmessage hheld hbody hactive hafter hshut
        (hk.abandon.trans habandon)
  | receiving hmode hdiscard hmessage hheld hactive hpending hbody hshut habandon =>
      exact .receiving hmode hdiscard hmessage hheld hactive hpending hbody hshut
        (hk.abandon.trans habandon)
  | waiting hmode hdiscard hmessage hheld hafter hshut hmid hturn b hbody hend hactive habandon =>
      refine .waiting hmode hdiscard hmessage hheld hafter hshut (hk.midFeed hmid)
        (fun ht => hturn (hk.feedTurn ht)) b hbody hend ?_ ?_
      · rw [hk.abandon]
        exact hactive
      · rw [hk.abandon]
        exact habandon
  | drained hmode hdiscard hover hpending hheld hfeeder hactive =>
      refine .drained hmode hdiscard hover hpending hheld (hk.feeder hfeeder) fun ha => ?_
      rw [hk.abandon]
      exact hactive ha

/-- That a stack is sound depends on its kinds alone. -/
theorem StackSound.kinds {r : Reading} {k k' : List Stmt} (h : StackSound r k)
    (hk : SameKinds k k') : StackSound r k' where
  top := hk.top.trans h.top
  feeders := hk.feeders.trans h.feeders
  pumps := hk.pumps.trans h.pumps
  fed := fun hs => hk.fed.trans (h.fed hs)
  pending := by
    rw [hk.input]
    exact h.pending
  closing := by
    rw [hk.pushClose]
    exact h.closing
  release := by
    rw [hk.release]
    exact h.release
  abandoned := by
    rw [hk.abandon]
    exact h.abandoned
  late := by
    rw [hk.loop]
    exact h.late

/-- The core of the invariant depends on the stack's kinds alone. -/
theorem PauseCore.kinds {r : Reading} {k k' : List Stmt} (h : PauseCore r k)
    (hk : SameKinds k k') : PauseCore r k' :=
  ⟨h.notFailed, h.queue, h.stack.kinds hk, h.body, h.inflater⟩

/-- A stack with the same pieces of each kind. -/
theorem PauseOk.kinds {r : Reading} {k k' : List Stmt} (h : PauseOk r k) (hk : SameKinds k k')
    (hresumed : r.paused = true → r.high = true ∨ k'.any Stmt.isResume = true) :
    PauseOk r k' where
  toPauseCore := h.toPauseCore.kinds hk
  resumed := hresumed
  settled := fun b hb =>
    ⟨(h.settled b hb).reads, fun hf => hk.finish.trans ((h.settled b hb).finished hf)⟩
  due := by
    rw [hk.loop]
    exact h.due
  phase := h.phase.frame hk.phase

/-- A light piece pushed. -/
theorem StackSound.push {r : Reading} {k : List Stmt} (h : StackSound r k) {p : Stmt}
    (hp : p.isLight = true) : StackSound r (p :: k) := by
  obtain ⟨hfeeder, -, -, hpump, hloop, hinput, habandon, htop, hclose, hrelease⟩ :=
    Stmt.isLight_kinds hp
  constructor
  · exact (any_cons_of_false htop).trans h.top
  · exact (countP_cons_of_false hfeeder).trans h.feeders
  · exact (countP_cons_of_false hpump).trans h.pumps
  · intro hs
    rw [fedPumps, hpump, Bool.not_false, Bool.true_or, Bool.true_and]
    exact h.fed hs
  · rw [any_cons_of_false hinput]
    exact h.pending
  · rw [any_cons_of_false hclose]
    exact h.closing
  · rw [any_cons_of_false hrelease]
    exact h.release
  · rw [any_cons_of_false habandon]
    exact h.abandoned
  · rw [any_cons_of_false hloop]
    exact h.late

/-- A light piece on top leaves the phase as it is. -/
theorem PhaseKinds.push (k : List Stmt) {p : Stmt} (hp : p.isLight = true) :
    PhaseKinds k (p :: k) := by
  obtain ⟨hfeeder, hmid, hturn, -, -, -, habandon, -, -, hrelease⟩ := Stmt.isLight_kinds hp
  constructor
  · exact any_cons_of_false hrelease
  · exact any_cons_of_false habandon
  · rw [any_cons_of_false hmid]
    exact id
  · rw [any_cons_of_false hturn]
    exact id
  · rw [any_cons_of_false hfeeder]
    exact id

theorem PhaseKinds.trans {k k' k'' : List Stmt} (h : PhaseKinds k k') (h' : PhaseKinds k' k'') :
    PhaseKinds k k'' :=
  ⟨h'.release.trans h.release, h'.abandon.trans h.abandon,
    fun hm => h'.midFeed (h.midFeed hm), fun ht => h.feedTurn (h'.feedTurn ht),
    fun hf => h'.feeder (h.feeder hf)⟩

/-- A light piece on top keeps the core of the invariant. -/
theorem PauseCore.push {r : Reading} {k : List Stmt} (h : PauseCore r k) {p : Stmt}
    (hp : p.isLight = true) : PauseCore r (p :: k) :=
  ⟨h.notFailed, h.queue, h.stack.push hp, h.body, h.inflater⟩

/-- Pieces on top cannot take a promised resume away. -/
theorem resumed_append {r : Reading} {k : List Stmt} (ks : List Stmt)
    (h : r.paused = true → r.high = true ∨ k.any Stmt.isResume = true) :
    r.paused = true → r.high = true ∨ (ks ++ k).any Stmt.isResume = true := by
  intro hp
  refine (h hp).imp id fun hk => ?_
  rw [List.any_append, hk, Bool.or_true]

/-- A mild piece that changes nothing that reading depends on, and pushes mild pieces. -/
theorem PauseOk.mild {r r' : Reading} {p : Stmt} {k : List Stmt} (h : PauseOk r (p :: k))
    (ks : List Stmt) (hp : p.isMild = true) (hresume : p.isResume = false) (hr : r' = r)
    (hks : ks.all Stmt.isMild = true) : PauseOk r' (ks ++ k) := by
  subst hr
  have hpop : PauseOk r' k := h.kinds (SameKinds.cons k hp).symm fun hpaused => by
    rw [← any_cons_of_false hresume]
    exact h.resumed hpaused
  exact hpop.kinds (.append ks k hks) (resumed_append ks hpop.resumed)

/-! ## Pieces that reading does not depend on -/

/-- A piece that leaves what reading depends on as it is, and pushes mild pieces. -/
def Plain (s : State) (e : Exec) : Prop := e.1.reading = s.reading ∧ e.2.all Stmt.isMild = true

/-- A plain piece after a step that leaves the reading side alone is plain. -/
theorem Plain.trans {s s' : State} {e : Exec} (h : Plain s' e) (hs : s'.reading = s.reading) :
    Plain s e := ⟨h.1.trans hs, h.2⟩

theorem setCloseInfo_reading (s : State) (code : Nat) (reason : Bytes) (clean : Bool) :
    (s.setCloseInfo code reason clean).reading = s.reading := by
  rw [setCloseInfo]
  split <;> rfl

theorem writeControl_plain (s : State) (opcode : Nat) (payload : Bytes)
    (done : Option Completion) : Plain s (s.writeControl opcode payload done) := by
  rw [writeControl]
  split
  · exact ⟨rfl, rfl⟩
  · cases done <;> exact ⟨rfl, rfl⟩

theorem endedRest_plain (s : State) : Plain s s.endedRest := by
  refine ⟨?_, rfl⟩
  show (if _ then _ else _ : State).reading = _
  split <;> rfl

theorem postClosed_plain (s : State) : Plain s s.postClosed := by
  unfold postClosed
  dsimp only
  split
  · exact ⟨rfl, rfl⟩
  · split
    · exact ⟨setCloseInfo_reading { s with cl.closedPosted := true } kCloseAbnormal [] false, rfl⟩
    · exact ⟨setCloseInfo_reading { s with cl.closedPosted := true } kCloseAbnormal [] false, rfl⟩

theorem closeFrameWritten_plain (s : State) (err : Nat) : Plain s (s.closeFrameWritten err) := by
  rw [closeFrameWritten]
  split
  · split <;> exact ⟨rfl, rfl⟩
  · exact ⟨rfl, rfl⟩

theorem complete_plain (s : State) (done : Completion) (err : Nat) :
    Plain s (s.complete done err) := by
  cases done with
  | closeFrameWritten => exact closeFrameWritten_plain s err
  | writeResult chan token size => exact ⟨rfl, rfl⟩
  | streamClosed chan token => exact ⟨rfl, rfl⟩

/-- The end of the connection leaves the reading side alone. -/
theorem finishIfDone_plain (s : State) : Plain s s.finishIfDone := by
  rw [finishIfDone]
  split <;> exact ⟨rfl, rfl⟩

theorem failWithClose_plain (s : State) (frameCode : Nat) (frameText : Bytes) :
    Plain s (s.failWithClose frameCode frameText) := by
  unfold failWithClose
  dsimp only
  split
  · exact ⟨rfl, rfl⟩
  · exact (writeControl_plain _ _ _ _).trans rfl

/-- Writing frames leaves the reading side alone. -/
theorem pumpWrites_plain (s : State) : Plain s s.pumpWrites := by
  rw [pumpWrites]
  split <;> exact ⟨rfl, rfl⟩

/-- A turn of the write pump fails the connection or is plain. -/
theorem pumpLoop_plain (c : Choice) (s : State) :
    Plain s (s.pumpLoop c)
      ∨ ∃ code text, (s.pumpLoop c).1.reading = s.reading
        ∧ (s.pumpLoop c).2 = [.failConnection code text] := by
  unfold pumpLoop
  split
  · exact .inl ⟨rfl, rfl⟩
  · dsimp only
    split
    · exact .inl ⟨rfl, rfl⟩
    · split
      · exact .inl ⟨rfl, rfl⟩
      · split
        · exact .inl ⟨rfl, rfl⟩
        · split
          · unfold pumpChunk
            dsimp only
            split
            · exact .inr ⟨_, _, rfl, rfl⟩
            · split <;> exact .inl ⟨rfl, rfl⟩
          · split <;> exact .inl ⟨rfl, rfl⟩
      · unfold pumpMessage
        dsimp only
        split
        · exact .inr ⟨_, _, rfl, rfl⟩
        · split <;> exact .inl ⟨rfl, rfl⟩

theorem closeServer_plain (s : State) : Plain s s.closeServer := by
  rw [closeServer]
  split <;> exact ⟨rfl, rfl⟩

/-- A transport that fails leaves the reading side alone. -/
theorem failWithTransport_plain (s : State) : Plain s s.failWithTransport := by
  rw [failWithTransport]
  split <;> exact ⟨rfl, rfl⟩

theorem endReadable_plain (s : State) (how : ReadEnd) (err : Nat) (reason : String) :
    Plain s (s.endReadable how err reason) := by
  rw [endReadable]
  split <;> exact ⟨rfl, rfl⟩

theorem armHeartbeat_plain (s : State) (t : Int) : Plain s (s.armHeartbeat t) := by
  rw [armHeartbeat]
  split <;> exact ⟨rfl, rfl⟩

theorem armPongTimer_plain (s : State) : Plain s s.armPongTimer := by
  rw [armPongTimer]
  split <;> exact ⟨rfl, rfl⟩

theorem updateInterest_plain (s : State) : Plain s s.updateInterest := by
  rw [updateInterest]
  split <;> exact ⟨rfl, rfl⟩

/-- A pong that is matched leaves the reading side alone. -/
theorem pongMatch_plain (s : State) (payload : Bytes) (t : Int) :
    Plain s (s.pongMatch payload t) := by
  rw [pongMatch]
  split <;> exact ⟨rfl, rfl⟩

theorem eofClose_plain (c : Choice) (s : State) : Plain s (s.exec c .eofClose) := by
  show Plain s (if _ then _ else _)
  split <;> exact ⟨rfl, rfl⟩

/-- The pieces that reading does not depend on. -/
def Stmt.isPlain : Stmt → Bool
  | .inPort => true
  | .pongMatch _ _ => true
  | .sendEcho _ => true
  | .endReadable _ _ _ => true
  | .setDeadline .heartbeat _ => true
  | .setDeadline .pong _ => true
  | .resumePings _ => true
  | .armHeartbeat _ => true
  | .armPongTimer => true
  | .updateInterest => true
  | .pumpWrites => true
  | .pumpLoop => true
  | .failWithClose _ _ => true
  | .failWithTransport => true
  | .complete _ _ => true
  | .finishIfDone => true
  | .closeServer => true
  | .endedRest => true
  | .postClosed => true
  | .postClosedEvent => true
  | .sendPing _ => true
  | .sendHeartbeat => true
  | .eofClose => true
  | _ => false

/-- Plain pieces are mild and resume nothing. -/
theorem Stmt.isPlain_mild {p : Stmt} (h : p.isPlain = true) :
    p.isMild = true ∧ p.isResume = false := by
  cases p with
  | setDeadline timer t => cases timer <;> first | exact ⟨rfl, rfl⟩ | exact Bool.noConfusion h
  | _ => first | exact ⟨rfl, rfl⟩ | exact Bool.noConfusion h

/-- A plain piece leaves the reading side alone and pushes mild pieces, or it fails the
    connection. -/
theorem exec_plain (c : Choice) (s : State) {p : Stmt} (hp : p.isPlain = true) :
    Plain s (s.exec c p)
      ∨ ∃ code text, (s.exec c p).1.reading = s.reading
        ∧ (s.exec c p).2 = [.failConnection code text] := by
  cases p with
  | pumpLoop => exact pumpLoop_plain c s
  | inPort => exact .inl ⟨rfl, rfl⟩
  | pongMatch payload t => exact .inl (pongMatch_plain s payload t)
  | sendEcho code => exact .inl ((writeControl_plain _ _ _ _).trans rfl)
  | endReadable how err reason => exact .inl (endReadable_plain s how err reason)
  | setDeadline timer t =>
      cases timer with
      | heartbeat => exact .inl ⟨rfl, rfl⟩
      | pong => exact .inl ⟨rfl, rfl⟩
      | closeHandshake => exact Bool.noConfusion hp
  | resumePings t => exact .inl ⟨rfl, rfl⟩
  | armHeartbeat t => exact .inl (armHeartbeat_plain s t)
  | armPongTimer => exact .inl (armPongTimer_plain s)
  | updateInterest => exact .inl (updateInterest_plain s)
  | pumpWrites => exact .inl (pumpWrites_plain s)
  | failWithClose frameCode frameText => exact .inl (failWithClose_plain s frameCode frameText)
  | failWithTransport => exact .inl (failWithTransport_plain s)
  | complete done err => exact .inl (complete_plain s done err)
  | finishIfDone => exact .inl (finishIfDone_plain s)
  | closeServer => exact .inl (closeServer_plain s)
  | endedRest => exact .inl (endedRest_plain s)
  | postClosed => exact .inl (postClosed_plain s)
  | postClosedEvent => exact .inl ⟨rfl, rfl⟩
  | sendPing payload => exact .inl (writeControl_plain _ _ _ _)
  | sendHeartbeat => exact .inl ((writeControl_plain _ _ _ _).trans rfl)
  | eofClose => exact .inl (eofClose_plain c s)
  | _ => exact Bool.noConfusion hp

/-- Every plain piece keeps the invariant. -/
theorem PauseInv.plain {s : State} {p : Stmt} {k : List Stmt} (c : Choice)
    (h : PauseOk s.reading (p :: k)) (hp : p.isPlain = true) :
    PauseInv (s.exec c p).1 ((s.exec c p).2 ++ k) := by
  obtain ⟨hmild, hresume⟩ := Stmt.isPlain_mild hp
  rcases exec_plain c s hp with ⟨hr, hks⟩ | ⟨code, text, hr, hks⟩
  · exact .settled (h.mild _ hmild hresume hr hks)
  · rw [hks]
    refine .failing fun hf => ?_
    rw [show (s.exec c p).1.cl.failed = s.cl.failed from congrArg Reading.failed hr,
      show s.cl.failed = false from h.notFailed] at hf
    cases hf

/-! ## Pausing and the readable -/

/-- The piece at the top of the stack replaced by mild ones that resume. -/
theorem PauseOk.swap {r : Reading} {p : Stmt} {k : List Stmt} (h : PauseOk r (p :: k))
    (ks : List Stmt) (hp : p.isMild = true) (hks : ks.all Stmt.isMild = true)
    (hresumed : r.paused = true → r.high = true ∨ (ks ++ k).any Stmt.isResume = true) :
    PauseOk r (ks ++ k) :=
  h.kinds ((SameKinds.cons k hp).symm.trans (.append ks k hks)) hresumed

/-- The reading side may be set paused where a resume is promised or the buffers are high. -/
theorem PauseOk.setPaused {r : Reading} {k : List Stmt} (h : PauseOk r k) {paused : Bool}
    (hresumed : paused = true → r.high = true ∨ k.any Stmt.isResume = true) :
    PauseOk { r with paused := paused } k where
  notFailed := h.notFailed
  resumed := hresumed
  queue := ⟨h.queue.bytes, h.queue.unready, h.queue.shut⟩
  stack := ⟨h.stack.top, h.stack.feeders, h.stack.pumps, h.stack.fed, h.stack.pending,
    h.stack.closing, h.stack.release, h.stack.abandoned, h.stack.late⟩
  body := h.body
  settled := h.settled
  inflater := ⟨h.inflater.left, h.inflater.finished, h.inflater.ready⟩
  due := h.due
  phase := h.phase.frame (SameKinds.refl k).phase

/-- The check of the high mark keeps the invariant. -/
theorem PauseInv.checkPause {s : State} {k : List Stmt} (c : Choice)
    (h : PauseOk s.reading (.checkPause :: k)) :
    PauseInv (s.checkPause c).1 ((s.checkPause c).2 ++ k) := by
  have hpaused : ∀ (ks : List Stmt) (paused : Bool), ks.all Stmt.isMild = true →
      (paused = true → s.high = true) → PauseOk { s.reading with paused := paused } (ks ++ k) := by
    intro ks paused hks hp
    exact PauseOk.swap (h.setPaused fun hp' => .inl (hp hp')) ks rfl hks fun hp' => .inl (hp hp')
  unfold State.checkPause
  dsimp only
  by_cases hhigh : s.high = true
  · rw [if_pos hhigh]
    split
    · exact .settled (hpaused [] _ rfl fun _ => hhigh)
    · split
      · exact .settled (hpaused [.inPort, .setDeadline .pong 0] true rfl fun _ => hhigh)
      · exact .settled (hpaused [] true rfl fun _ => hhigh)
  · rw [if_neg hhigh]
    split
    · split
      · exact .settled (hpaused [.resumePings _, .armPongTimer, .updateInterest] false rfl
          (fun hp => by cases hp))
      · split
        · exact .settled (hpaused [.armHeartbeat _, .resumePings _, .armPongTimer, .updateInterest]
            false rfl (fun hp => by cases hp))
        · exact .settled (hpaused [.resumePings _, .armPongTimer, .updateInterest] false rfl
            (fun hp => by cases hp))
    · rename_i hp
      exact .settled (hpaused [] _ rfl fun hp' => absurd hp' hp)

/-- The port's input over. -/
theorem PauseOk.setInputOver {r : Reading} {k : List Stmt} (h : PauseOk r k) :
    PauseOk { r with inputOver := true } k where
  notFailed := h.notFailed
  resumed := h.resumed
  queue := ⟨h.queue.bytes, h.queue.unready, h.queue.shut⟩
  stack := ⟨h.stack.top, h.stack.feeders, h.stack.pumps, h.stack.fed, h.stack.pending,
    h.stack.closing, h.stack.release, h.stack.abandoned, h.stack.late⟩
  body := h.body
  settled := h.settled
  inflater := ⟨h.inflater.left, h.inflater.finished, h.inflater.ready⟩
  due := h.due
  phase := by
    cases h.phase with
    | whole hmode hbody hheld => exact .whole hmode hbody hheld
    | dropping hmode hdiscard hheld hactive => exact .dropping hmode hdiscard hheld hactive
    | between hmode hdiscard hmessage hheld hbody hactive hafter hshut habandon =>
        exact .between hmode hdiscard hmessage hheld hbody hactive hafter hshut habandon
    | receiving hmode hdiscard hmessage hheld hactive hpending hbody hshut habandon =>
        exact .receiving hmode hdiscard hmessage hheld hactive hpending hbody hshut habandon
    | waiting hmode hdiscard hmessage hheld hafter hshut hmid hturn b hbody hend hactive
        habandon =>
        exact .waiting hmode hdiscard hmessage hheld hafter hshut hmid hturn b hbody hend hactive
          habandon
    | drained hmode hdiscard hover hpending hheld hfeeder hactive =>
        exact .drained hmode hdiscard rfl hpending hheld hfeeder hactive

/-- An abort, where the piece makes one. -/
theorem PauseInv.abort {s : State} {p : Stmt} {k : List Stmt} {b : Bool}
    (h : PauseOk s.reading (p :: k)) (hp : p.isMild = true) (hresume : p.isResume = false) :
    PauseInv (if b then s.portAbort else (s, []) : Exec).1
      ((if b then s.portAbort else (s, []) : Exec).2 ++ k) := by
  split
  · exact .settled (h.setInputOver.mild [.inPort] hp hresume rfl rfl)
  · exact .settled (h.mild [] hp hresume rfl rfl)

/-- An answered read takes messages from the front of the queue and keeps its count of bytes. -/
theorem answerRead_queue {rd rd' : Readable} {rq : ReadReq} {res : ChannelResult}
    (h : answerRead rd rq = some (rd', res))
    (hbytes : rd.msgQBytes = (rd.msgQ.map InMsg.bytes).sum) :
    rd'.msgQBytes = (rd'.msgQ.map InMsg.bytes).sum ∧ rd'.msgQ <:+ rd.msgQ
      ∧ rd'.readShut = rd.readShut ∧ rd'.paused = rd.paused := by
  rw [answerRead] at h
  split at h
  · rename_i m rest hq
    split at h
    · obtain ⟨rfl, -⟩ := Prod.mk.inj (Option.some.inj h)
      refine ⟨?_, hq ▸ List.suffix_cons m rest, rfl, rfl⟩
      show rd.msgQBytes - InMsg.bytes m = _
      rw [hbytes, hq, List.map_cons, List.sum_cons, Nat.add_sub_cancel_left]
    · cases h
  · split at h
    · obtain ⟨rfl, -⟩ := Prod.mk.inj (Option.some.inj h)
      exact ⟨hbytes, List.suffix_rfl, rfl, rfl⟩
    · obtain ⟨rfl, -⟩ := Prod.mk.inj (Option.some.inj h)
      exact ⟨hbytes, List.suffix_rfl, rfl, rfl⟩
    · cases h

/-- The same over all the reads that wait. -/
theorem answerReads_queue : ∀ (reqs : List ReadReq) {rd : Readable},
    rd.msgQBytes = (rd.msgQ.map InMsg.bytes).sum →
    (answerReads rd reqs).1.msgQBytes = ((answerReads rd reqs).1.msgQ.map InMsg.bytes).sum
      ∧ (answerReads rd reqs).1.msgQ <:+ rd.msgQ
      ∧ (answerReads rd reqs).1.readShut = rd.readShut
      ∧ (answerReads rd reqs).1.paused = rd.paused
  | [], rd, hbytes => ⟨hbytes, List.suffix_rfl, rfl, rfl⟩
  | rq :: reqs, rd, hbytes => by
      rw [answerReads]
      cases hanswer : answerRead rd rq with
      | none => exact ⟨hbytes, List.suffix_rfl, rfl, rfl⟩
      | some found =>
          obtain ⟨rd', res⟩ := found
          obtain ⟨hbytes', hsuffix, hshut, hpaused⟩ := answerRead_queue hanswer hbytes
          obtain ⟨hb, hs, hsh, hp⟩ := answerReads_queue reqs hbytes'
          exact ⟨hb, hs.trans hsuffix, hsh.trans hshut, hp.trans hpaused⟩

/-- Another queue of the readable. -/
theorem PauseOk.setQueue {r : Reading} {k : List Stmt} (h : PauseOk r k) {msgQ : List InMsg}
    {msgQBytes : Nat} (hqueue : QueueSound { r with msgQ := msgQ, msgQBytes := msgQBytes })
    (hresumed : k.any Stmt.isResume = true) :
    PauseOk { r with msgQ := msgQ, msgQBytes := msgQBytes } k where
  notFailed := h.notFailed
  resumed := fun _ => .inr hresumed
  queue := hqueue
  stack := ⟨h.stack.top, h.stack.feeders, h.stack.pumps, h.stack.fed, h.stack.pending,
    h.stack.closing, h.stack.release, h.stack.abandoned, h.stack.late⟩
  body := h.body
  settled := h.settled
  inflater := ⟨h.inflater.left, h.inflater.finished, h.inflater.ready⟩
  due := h.due
  phase := h.phase.frame (SameKinds.refl k).phase

/-- Delivering to the reads that wait keeps the invariant. -/
theorem PauseInv.deliverReads {s : State} {k : List Stmt}
    (h : PauseOk s.reading (.deliverReads :: k)) :
    PauseInv s.deliverReads.1 (s.deliverReads.2 ++ k) := by
  obtain ⟨hbytes, hsuffix, hshut, hpaused⟩ := answerReads_queue s.rd.readReqs h.queue.bytes
  refine .settled ?_
  have hqueue : QueueSound { s.reading with
      msgQ := (answerReads s.rd s.rd.readReqs).1.msgQ
      msgQBytes := (answerReads s.rd s.rd.readReqs).1.msgQBytes } :=
    { bytes := hbytes
      unready := fun m hm => h.queue.unready m (hsuffix.subset hm)
      shut := fun hs => List.eq_nil_of_suffix_nil ((h.queue.shut hs) ▸ hsuffix) }
  have hok := PauseOk.swap (h.setQueue hqueue rfl) [.checkPause] rfl rfl fun _ => .inr rfl
  have hreading : s.deliverReads.1.reading = { s.reading with
      msgQ := (answerReads s.rd s.rd.readReqs).1.msgQ
      msgQBytes := (answerReads s.rd s.rd.readReqs).1.msgQBytes } := by
    show Reading.mk _ _ _ _ _ _ _ _ _ _ _ _ _ _ _ _ _ _ _ _ _
      = Reading.mk _ _ _ _ _ _ _ _ _ _ _ _ _ _ _ _ _ _ _ _ _
    congr 1
  rw [hreading]
  exact hok

/-! ## Bodies -/

/-- Joining pieces moves bytes and loses none. -/
theorem joinPieces_length : ∀ (q : List Bytes) (bytes : Bytes),
    (joinPieces bytes q).1.length + ((joinPieces bytes q).2.map List.length).sum
      = bytes.length + (q.map List.length).sum
  | [], bytes => rfl
  | p :: q, bytes => by
      rw [joinPieces]
      split
      · rw [joinPieces_length q, List.length_append, List.map_cons, List.sum_cons, Nat.add_assoc]
      · rfl

/-- What answering the reads of a body leaves alone. -/
structure Body.Same (b b' : Body) : Prop where
  seq : b'.seq = b.seq
  cancelled : b'.cancelled = b.cancelled
  end_ : b'.end_ = b.end_
  messageDone : b'.messageDone = b.messageDone

/-- An answered read of a body keeps the body sound. -/
theorem answerBodyRead_sound {b b' : Body} {rq : ReadReq} {res : ChannelResult}
    (h : answerBodyRead b rq = some (b', res)) (hb : BodySound b) :
    BodySound b' ∧ b.Same b' := by
  rw [answerBodyRead] at h
  split at h
  · rename_i p q hq
    obtain ⟨rfl, -⟩ := Prod.mk.inj (Option.some.inj h)
    have hdelivered : b.endDelivered = false := Bool.eq_false_iff.mpr fun hd =>
      List.cons_ne_nil p q (hq.symm.trans (hb.delivered hd).1)
    have hcancelled : b.cancelled = false := Bool.eq_false_iff.mpr fun hc =>
      List.cons_ne_nil p q (hq.symm.trans (hb.cancelled hc))
    refine ⟨⟨?_, hb.ended, ?_, ?_⟩, rfl, rfl, rfl, rfl⟩
    · show b.qBytes - (joinPieces p q).1.length = ((joinPieces p q).2.map List.length).sum
      rw [hb.bytes, hq, List.map_cons, List.sum_cons, ← joinPieces_length, Nat.add_sub_cancel_left]
    · exact fun hd => absurd hd (Bool.eq_false_iff.mp hdelivered)
    · exact fun hc => absurd hc (Bool.eq_false_iff.mp hcancelled)
  · rename_i hq
    split at h
    · rename_i hend
      obtain ⟨rfl, -⟩ := Prod.mk.inj (Option.some.inj h)
      exact ⟨⟨hb.bytes, hb.ended, fun _ => ⟨hq, by rw [hend]; exact ReadEnd.noConfusion⟩,
        hb.cancelled⟩, rfl, rfl, rfl, rfl⟩
    · rename_i hend
      obtain ⟨rfl, -⟩ := Prod.mk.inj (Option.some.inj h)
      exact ⟨⟨hb.bytes, hb.ended, fun _ => ⟨hq, by rw [hend]; exact ReadEnd.noConfusion⟩,
        hb.cancelled⟩, rfl, rfl, rfl, rfl⟩
    · cases h

/-- A read of a body waits only while nothing is queued and no end has come. -/
theorem answerBodyRead_none {b : Body} {rq : ReadReq} (h : answerBodyRead b rq = none) :
    b.q = [] ∧ b.end_ = .None := by
  rw [answerBodyRead] at h
  split at h
  · cases h
  · rename_i hq
    split at h
    · cases h
    · cases h
    · rename_i hend
      exact ⟨hq, hend⟩

/-- The same over all the reads of a body; those still waiting wait for good reason. -/
theorem answerBodyReads_sound : ∀ (reqs : List ReadReq) {b : Body}, BodySound b →
    BodySound (answerBodyReads b reqs).1 ∧ b.Same (answerBodyReads b reqs).1
      ∧ ((answerBodyReads b reqs).1.reads ≠ [] →
        ((answerBodyReads b reqs).1.q = [] ∧ (answerBodyReads b reqs).1.end_ = .None)
          ∨ (answerBodyReads b reqs).1.endDelivered = true)
  | [], b, hb => ⟨⟨hb.bytes, hb.ended, hb.delivered, hb.cancelled⟩, ⟨rfl, rfl, rfl, rfl⟩,
      fun hr => absurd rfl hr⟩
  | rq :: reqs, b, hb => by
      rw [answerBodyReads]
      cases hanswer : answerBodyRead b rq with
      | none =>
          exact ⟨⟨hb.bytes, hb.ended, hb.delivered, hb.cancelled⟩, ⟨rfl, rfl, rfl, rfl⟩,
            fun _ => .inl (show b.q = [] ∧ b.end_ = .None from answerBodyRead_none hanswer)⟩
      | some found =>
          obtain ⟨b', res⟩ := found
          obtain ⟨hb', hsame⟩ := answerBodyRead_sound hanswer hb
          dsimp only
          split
          · rename_i hdelivered
            exact ⟨⟨hb'.bytes, hb'.ended, hb'.delivered, hb'.cancelled⟩,
              ⟨hsame.seq, hsame.cancelled, hsame.end_, hsame.messageDone⟩, fun _ => .inr hdelivered⟩
          · obtain ⟨hs, hsame', hreads⟩ := answerBodyReads_sound reqs hb'
            exact ⟨hs, ⟨hsame'.seq.trans hsame.seq, hsame'.cancelled.trans hsame.cancelled,
              hsame'.end_.trans hsame.end_, hsame'.messageDone.trans hsame.messageDone⟩, hreads⟩

theorem finished_of_delivered {b : Body} (h : b.endDelivered = true) : Body.finished b = true := by
  rw [Body.finished, h, Bool.true_or]

/-- The body changed, as far along as it was. -/
theorem Phase.setBody {r : Reading} {k : List Stmt} (h : Phase r k) {b b' : Body}
    (hb : r.body = some b) (hdone : b'.messageDone = b.messageDone)
    (hidle : k.any Stmt.isAbandon = true → b.reads = [] → Body.finished b = false →
      b'.reads = [] ∧ Body.finished b' = false) :
    Phase { r with body := some b' } k := by
  have hother : (∃ b, r.body = some b ∧ b.messageDone = false) →
      ∃ b₁, some b' = some b₁ ∧ b₁.messageDone = false := by
    rintro ⟨b₁, hb₁, hd⟩
    obtain rfl : b = b₁ := Option.some.inj (hb.symm.trans hb₁)
    exact ⟨b', rfl, hdone.trans hd⟩
  cases h with
  | whole hmode hbody hheld => cases hb.symm.trans hbody
  | dropping hmode hdiscard hheld hactive =>
      exact .dropping hmode hdiscard hheld fun ha => (hactive ha).imp hother id
  | between hmode hdiscard hmessage hheld hbody hactive hafter hshut habandon =>
      cases hb.symm.trans hbody
  | receiving hmode hdiscard hmessage hheld hactive hpending hbody hshut habandon =>
      exact .receiving hmode hdiscard hmessage hheld hactive hpending (hother hbody) hshut habandon
  | waiting hmode hdiscard hmessage hheld hafter hshut hmid hturn b₁ hbody hend hactive
      habandon =>
      obtain rfl : b = b₁ := Option.some.inj (hb.symm.trans hbody)
      refine .waiting hmode hdiscard hmessage hheld hafter hshut hmid hturn b' rfl ?_ ?_ ?_
      · rw [hdone]
        exact hend
      · rw [hdone]
        exact hactive
      · intro ha
        obtain ⟨hreads, hfinished, hd⟩ := habandon ha
        obtain ⟨hreads', hfinished'⟩ := hidle ha hreads hfinished
        exact ⟨hreads', hfinished', hdone.trans hd⟩
  | drained hmode hdiscard hover hpending hheld hfeeder hactive =>
      exact .drained hmode hdiscard hover hpending hheld hfeeder fun ha =>
        (hactive ha).imp hother id

/-- The body changed, with the same end. -/
theorem PauseCore.setBody {r : Reading} {k : List Stmt} (h : PauseCore r k) {b b' : Body}
    (hb : r.body = some b) (hsound : BodySound b')
    (hend : b.end_ ≠ .None → b'.end_ ≠ .None)
    (hlate : r.pumpingInflate = true → r.rxActive = true → r.rxCompressed = true →
      k.any Stmt.isLoop = true ∨ (b'.cancelled = false ∧ b'.end_ = .None ∧ b'.reads = [])) :
    PauseCore { r with body := some b' } k where
  notFailed := h.notFailed
  queue := ⟨h.queue.bytes, h.queue.unready, h.queue.shut⟩
  stack :=
    { top := h.stack.top
      feeders := h.stack.feeders
      pumps := h.stack.pumps
      fed := h.stack.fed
      pending := h.stack.pending
      closing := h.stack.closing
      release := h.stack.release
      abandoned := by
        intro ha b₁ hb₁
        obtain rfl := Option.some.inj hb₁
        exact hend (h.stack.abandoned ha b hb)
      late := fun hp ha hz => (hlate hp ha hz).imp id fun ⟨hc, he, hr⟩ => ⟨b', rfl, hc, he, hr⟩ }
  body := by
    intro b₁ hb₁
    obtain rfl := Option.some.inj hb₁
    exact hsound
  inflater := ⟨h.inflater.left, h.inflater.finished, h.inflater.ready⟩

/-! ## The pieces that run at once -/

/-- The loop of `pumpInflate` entered. -/
theorem PauseCore.startPump {r : Reading} {k : List Stmt} (h : PauseCore r k)
    (hpumping : r.pumpingInflate = false)
    (hfed : r.streamed = false → k.any Stmt.isFeeder = true) :
    PauseCore { r with pumpingInflate := true } (.inflateLoop :: k) where
  notFailed := h.notFailed
  queue := ⟨h.queue.bytes, h.queue.unready, h.queue.shut⟩
  stack :=
    { top := h.stack.top
      feeders := h.stack.feeders
      pumps := by
        have hnone := h.stack.pumps
        rw [hpumping] at hnone
        rw [List.countP_cons_of_pos (by rfl), hnone]
        rfl
      fed := by
        intro hs
        rw [fedPumps, hfed hs, h.stack.fed hs]
        rfl
      pending := h.stack.pending
      closing := h.stack.closing
      release := h.stack.release
      abandoned := h.stack.abandoned
      late := fun _ _ _ => .inl rfl }
  body := h.body
  inflater := ⟨h.inflater.left, h.inflater.finished, h.inflater.ready⟩

theorem PhaseKinds.loop (k : List Stmt) : PhaseKinds k (.inflateLoop :: k) :=
  ⟨rfl, rfl, id, id, id⟩

/-- The inflater pumped: it is not pumping yet, it is pumping further down, or the body can
    go on later. -/
theorem PauseInv.pumpInflate {s : State} {k : List Stmt} (hcore : PauseCore s.reading k)
    (hresumed : s.rd.paused = true → s.high = true ∨ k.any Stmt.isResume = true)
    (hsettled : ∀ b, s.rx.body = some b → BodySettled b k)
    (hdue : s.reading.inflateDue = true → k.any Stmt.isLoop = true
      ∨ s.rx.pumpingInflate = false ∨ Spare s.reading)
    (hphase : Phase s.reading k)
    (hfed : s.cfg.streamed = false → k.any Stmt.isFeeder = true) :
    PauseInv s (.pumpInflate :: k) := by
  refine .next (fun h => by cases h) fun c => ?_
  show PauseInv s.pumpInflate.1 (s.pumpInflate.2 ++ k)
  rw [State.pumpInflate]
  split
  · rename_i hpumping
    refine .settled ⟨hcore, hresumed, hsettled, fun hd => (hdue hd).imp id fun h => ?_, hphase⟩
    refine h.resolve_left fun hp => ?_
    rw [hpumping] at hp
    cases hp
  · rename_i hpumping
    rw [Bool.not_eq_true] at hpumping
    refine .settled (show PauseOk { s.reading with pumpingInflate := true } (.inflateLoop :: k)
      from ⟨hcore.startPump hpumping hfed, fun _ => .inr rfl, fun b hb => ?_, fun _ => .inl rfl,
        hphase.frame (.loop k)⟩)
    exact ⟨(hsettled b hb).reads, (hsettled b hb).finished⟩

/-- Only a streamed message has a body. -/
theorem Phase.streamed {r : Reading} {k : List Stmt} (h : Phase r k) {b : Body}
    (hb : r.body = some b) : r.streamed = true := by
  cases h with
  | whole hmode hbody hheld => cases hb.symm.trans hbody
  | dropping hmode => exact hmode
  | between hmode => exact hmode
  | receiving hmode => exact hmode
  | waiting hmode => exact hmode
  | drained hmode => exact hmode

/-- The reads of the body answered. -/
theorem PauseInv.deliverBody {s : State} {k : List Stmt} {b : Body} (hb : s.rx.body = some b)
    (hcore : PauseCore s.reading k)
    (hdue : s.reading.inflateDue = true → k.any Stmt.isLoop = true
      ∨ s.rx.pumpingInflate = false ∨ Spare s.reading)
    (hphase : Phase s.reading k) : PauseInv s (.deliverBody :: k) := by
  refine .next (fun h => by cases h) fun c => ?_
  show PauseInv s.deliverBody.1 (s.deliverBody.2 ++ k)
  obtain ⟨hsound, hsame, hreads⟩ := answerBodyReads_sound b.reads (hcore.body b hb)
  -- without a read waiting nothing changes
  have hnoReads : b.reads = [] → (answerBodyReads b b.reads).1 = b := by
    intro hr
    rw [hr]
    show { b with reads := [] } = b
    rw [← hr]
  rw [State.deliverBody, hb]
  dsimp only
  generalize hb' : (answerBodyReads b b.reads).1 = b' at *
  have hspare : Spare s.reading → Spare { s.reading with body := some b' } := by
    rintro ⟨b₁, hb₁, hc, he, hr⟩
    obtain rfl : b = b₁ := Option.some.inj (hb.symm.trans hb₁)
    exact ⟨b', rfl, (hnoReads hr).symm ▸ hc, (hnoReads hr).symm ▸ he, (hnoReads hr).symm ▸ hr⟩
  have hcore' : PauseCore { s.reading with body := some b' }
      (.checkPause :: .maybeFinishBody :: k) := by
    refine ((hcore.setBody hb hsound (fun he => hsame.end_ ▸ he)
      fun hp ha hz => ?_).push rfl).push rfl
    refine (hcore.stack.late hp ha hz).imp id fun hs => ?_
    obtain ⟨b₁, hb₁, hc, he, hr⟩ := hspare hs
    obtain rfl : b' = b₁ := Option.some.inj hb₁
    exact ⟨hc, he, hr⟩
  have hphase' : Phase { s.reading with body := some b' }
      (.checkPause :: .maybeFinishBody :: k) := by
    refine (hphase.setBody hb hsame.messageDone fun _ hr hf => ?_).frame
      ((PhaseKinds.push k rfl).trans (.push _ rfl))
    rw [hnoReads hr]
    exact ⟨hr, hf⟩
  have hsettled : ∀ b₁, some b' = some b₁ → BodySettled b₁
      (.checkPause :: .maybeFinishBody :: k) := by
    intro b₁ hb₁
    obtain rfl := Option.some.inj hb₁
    exact ⟨fun hr => (hreads hr).imp id finished_of_delivered, fun _ => rfl⟩
  have hdue' : s.reading.inflateDue = true → k.any Stmt.isLoop = true
      ∨ s.rx.pumpingInflate = false ∨ Spare { s.reading with body := some b' } := fun hd =>
    (hdue hd).imp id (Or.imp id hspare)
  split
  -- the queue has room again and the inflater has input: it is run
  · refine PauseInv.pumpInflate hcore' (fun _ => .inr rfl) hsettled hdue' hphase' fun hs => ?_
    exact absurd (hphase.streamed hb) (Bool.eq_false_iff.mp hs)
  · rename_i hmore
    exact .settled ⟨hcore', fun _ => .inr rfl, hsettled, fun hd => absurd hd hmore, hphase'⟩

theorem completePrefixFrom_le (text : Bytes) (n : Nat) :
    ∀ (turns i : Nat), i ≤ n → completePrefixFrom text n turns i ≤ n
  | 0, i, _ => by
      cases i <;> exact Nat.le_refl n
  | turns + 1, 0, _ => Nat.le_refl n
  | turns + 1, i + 1, hi => by
      have hi' : i ≤ n := Nat.le_of_succ_le hi
      rw [completePrefixFrom]
      split
      · exact completePrefixFrom_le text n turns i hi'
      · generalize (if text.getD i 0 < 0x80 then 1 else _ : Nat) = len
        show (if len ≤ n - i then n else i) ≤ n
        split
        · exact Nat.le_refl n
        · exact hi'

/-- The complete prefix is a prefix. -/
theorem utf8CompletePrefix_le (text : Bytes) : utf8CompletePrefix text ≤ text.length :=
  completePrefixFrom_le text text.length 4 text.length (Nat.le_refl _)

/-- Appending to a body changes its queue and its partial text alone. -/
theorem append_same (b : Body) (data : Bytes) :
    b.Same (Body.append b data) ∧ (Body.append b data).endDelivered = b.endDelivered
      ∧ (Body.append b data).reads = b.reads := by
  unfold Body.append
  split
  · dsimp only
    split <;> exact ⟨⟨rfl, rfl, rfl, rfl⟩, rfl, rfl⟩
  · exact ⟨⟨rfl, rfl, rfl, rfl⟩, rfl, rfl⟩

/-- A body that takes data stays sound. -/
theorem append_sound {b : Body} (hb : BodySound b) (data : Bytes) (hcancelled : b.cancelled = false)
    (hend : b.end_ = .None) : BodySound (Body.append b data) := by
  obtain ⟨hsame, hdelivered, -⟩ := append_same b data
  refine ⟨?_, ?_, ?_, ?_⟩
  · unfold Body.append
    have hadd : ∀ (p : Bytes) (n : Nat), p.length = n →
        b.qBytes + n = ((b.q ++ [p]).map List.length).sum := by
      intro p n hp
      rw [hb.bytes, List.map_append, List.sum_append, List.map_singleton, List.sum_singleton, hp]
    split
    · dsimp only
      split
      · exact hb.bytes
      · exact hadd _ _ (List.length_take_of_le (utf8CompletePrefix_le _))
    · exact hadd _ _ rfl
  · rw [hsame.end_, hsame.messageDone]
    exact hb.ended
  · intro hd
    rw [hdelivered] at hd
    exact absurd hend (hb.delivered hd).2
  · intro hc
    rw [hsame.cancelled, hcancelled] at hc
    cases hc

theorem append_finished (b : Body) (data : Bytes) :
    Body.finished (Body.append b data) = Body.finished b := by
  obtain ⟨hsame, hdelivered, -⟩ := append_same b data
  rw [Body.finished, Body.finished, hdelivered, hsame.cancelled, hsame.messageDone, hsame.end_]

theorem append_qBytes (b : Body) (data : Bytes) : b.qBytes ≤ (Body.append b data).qBytes := by
  unfold Body.append
  split
  · dsimp only
    split
    · exact Nat.le_refl _
    · exact Nat.le_add_right _ _
  · exact Nat.le_add_right _ _

/-- A piece that completes no character leaves the queue as it was. -/
theorem append_cut {b : Body} {data : Bytes}
    (h : (b.text && utf8CompletePrefix (b.partialText ++ data) == 0) = true) :
    (Body.append b data).q = b.q := by
  rw [Bool.and_eq_true, beq_iff_eq] at h
  unfold Body.append
  rw [if_pos h.1]
  dsimp only
  rw [if_pos h.2]

/-- A fuller body pauses as well. -/
theorem Reading.high_setBody {r : Reading} {b b' : Body} (hb : r.body = some b)
    (hle : b.qBytes ≤ b'.qBytes) (h : r.high = true) :
    Reading.high { r with body := some b' } = true := by
  simp only [Reading.high, hb, Option.any_some, Bool.or_eq_true, decide_eq_true_eq] at h ⊢
  rcases h with (((h | h) | h) | h) | h
  · exact .inl (.inl (.inl (.inl h)))
  · exact .inl (.inl (.inl (.inr h)))
  · exact .inl (.inl (.inr h))
  · exact .inl (.inr (Nat.le_trans h hle))
  · exact .inr h

/-- Data for the message being received. -/
theorem PauseInv.deliverData {s : State} {k : List Stmt} {data : Bytes}
    (h : PauseOk s.reading k) : PauseInv s (.deliverData data :: k) := by
  refine .next (fun h => by cases h) fun c => ?_
  show PauseAfter (s.deliverData data) k
  have hfailed : ∀ {p : Prop}, s.cl.failed = true → p := fun hf =>
    absurd hf (Bool.eq_false_iff.mp h.notFailed)
  unfold State.deliverData
  split
  · exact .settled h
  extract_lets text rx s₁
  have h₁ : PauseOk s₁.reading k := h
  have hfailed₁ : s₁.cl.failed = true → s₁.rx.inputDone = true := hfailed
  -- the text check changes nothing that the invariant reads
  clear_value s₁
  split
  · exact .failing hfailed₁
  split
  · split
    · exact .failing hfailed₁
    · split <;> exact .settled h₁
  split
  · exact .settled h₁
  rename_i b hb
  split
  · exact .settled h₁
  rename_i hopen
  rw [Bool.not_eq_true, Bool.or_eq_false_iff] at hopen
  have hend : b.end_ = .None := by simpa using hopen.2
  obtain ⟨hsame, hdelivered, hreads⟩ := append_same b data
  have hspare : b.reads = [] → (Body.append b data).cancelled = false
      ∧ (Body.append b data).end_ = .None ∧ (Body.append b data).reads = [] := fun hr =>
    ⟨hsame.cancelled.trans hopen.1, hsame.end_.trans hend, hreads.trans hr⟩
  -- the data goes to the end of the body's queue
  have hcore : PauseCore { s₁.reading with body := some (Body.append b data) } k := by
    refine h₁.toPauseCore.setBody hb (append_sound (h₁.body b hb) data hopen.1 hend)
      (fun he => absurd hend he) fun hp ha hz => (h₁.stack.late hp ha hz).imp id ?_
    rintro ⟨b₁, hb₁, -, -, hr⟩
    obtain rfl : b = b₁ := Option.some.inj (hb.symm.trans hb₁)
    exact hspare hr
  have hphase : Phase { s₁.reading with body := some (Body.append b data) } k :=
    h₁.phase.setBody hb hsame.messageDone fun _ hr hf =>
      ⟨hreads.trans hr, (append_finished b data).trans hf⟩
  have hdue : s₁.reading.inflateDue = true → k.any Stmt.isLoop = true
      ∨ Spare { s₁.reading with body := some (Body.append b data) } := fun hd =>
    (h₁.due hd).imp id fun ⟨b₁, hb₁, _, _, hr⟩ => by
      obtain rfl : b = b₁ := Option.some.inj (hb.symm.trans hb₁)
      exact ⟨_, rfl, hspare hr⟩
  extract_lets b' s₂
  split
  -- the append may leave only an unfinished character, which no read is answered with
  · rename_i hcut
    refine .settled (show PauseOk { s₁.reading with body := some (Body.append b data) } k from
      ⟨hcore, fun hp => (h₁.resumed hp).imp (Reading.high_setBody hb (append_qBytes b data)) id,
        fun b₁ hb₁ => ?_, hdue, hphase⟩)
    obtain rfl : Body.append b data = b₁ := Option.some.inj hb₁
    have hold := h₁.settled b hb
    refine ⟨fun hr => ?_, fun hf => hold.finished ((append_finished b data).symm.trans hf)⟩
    rw [append_cut hcut, hsame.end_, append_finished]
    exact hold.reads (hreads ▸ hr)
  · exact PauseInv.deliverBody rfl hcore (fun hd => (hdue hd).imp id .inr) hphase

/-- A body whose message arrived whole. -/
def Body.completed (b : Body) : Body :=
  { b with messageDone := true, end_ := if b.end_ = .None then .Eof else b.end_ }

theorem completed_end (b : Body) : (Body.completed b).end_ ≠ .None := by
  show (if b.end_ = .None then ReadEnd.Eof else b.end_) ≠ .None
  split
  · exact ReadEnd.noConfusion
  · assumption

/-- A body that is completed stays sound. -/
theorem completed_sound {b : Body} (hb : BodySound b) : BodySound (Body.completed b) :=
  ⟨hb.bytes, ⟨fun _ => rfl, fun _ => completed_end b⟩,
    fun hd => ⟨(hb.delivered hd).1, completed_end b⟩, hb.cancelled⟩

/-- The queue of the readable grown by a message. -/
theorem QueueSound.append {r : Reading} (h : QueueSound r) {m : InMsg}
    (hready : m.ready = false → 3 ≤ m.tag) (hshut : r.readShut = false) :
    QueueSound { r with msgQ := r.msgQ ++ [m], msgQBytes := r.msgQBytes + m.bytes } where
  bytes := by
    rw [List.map_append, List.sum_append, List.map_singleton, List.sum_singleton, ← h.bytes]
  unready := by
    intro m' hm'
    rcases List.mem_append.mp hm' with hm' | hm'
    · exact h.unready m' hm'
    · rw [List.mem_singleton.mp hm']
      exact hready
  shut := fun hs => absurd hs (Bool.eq_false_iff.mp hshut)

/-- A whole message for the readable. -/
theorem PauseInv.onMessage {s : State} {k : List Stmt} {opcode : Nat} {payload : Bytes}
    (h : PauseOk s.reading k) : PauseInv s (.sink (.onMessage opcode payload) :: k) := by
  refine .next (fun h => by cases h) fun c => ?_
  show PauseAfter (s.onMessage opcode payload) k
  rw [State.onMessage]
  split
  · exact .settled h
  · rename_i hopen
    rw [Bool.not_eq_true, Bool.or_eq_false_iff] at hopen
    have hbytes : ∀ m : InMsg, m.tag ≤ 2 → m.data = payload → m.bytes = payload.length := by
      intro m htag hdata
      rw [InMsg.bytes, if_pos htag, hdata]
    let m : InMsg := { tag := if opcode = WsFrame.kOpText then 1 else 2, data := payload }
    have htag : m.tag ≤ 2 := by
      show (if opcode = WsFrame.kOpText then (1 : Int) else 2) ≤ 2
      split <;> decide
    have hqueue := @QueueSound.append _ h.queue m (fun hr => by cases hr) hopen.2
    rw [hbytes m htag rfl] at hqueue
    have hpush : PauseOk s.reading (.deliverReads :: k) :=
      h.kinds (.append [.deliverReads] k rfl) fun _ => .inr rfl
    exact .settled (hpush.setQueue hqueue rfl)

/-- The message received to its end. -/
theorem PauseInv.messageComplete {s : State} {k : List Stmt} (hactive : s.rx.rxActive = true)
    (hcore : PauseCore { s.reading with rxActive := false, rxEndPending := false } k)
    (hresumed : k.any Stmt.isResume = true)
    (hnone : s.rx.body = none →
      Phase { s.reading with rxActive := false, rxEndPending := false } k)
    (hmode : s.cfg.streamed = false → s.rx.body = none)
    (hsome : ∀ b, s.rx.body = some b → Phase { s.reading with
      rxActive := false, rxEndPending := false, body := some (Body.completed b) } k) :
    PauseInv s (.messageComplete :: k) := by
  refine .next (fun h => by cases h) fun c => ?_
  show PauseAfter s.messageComplete k
  have hok : s.rx.body = none →
      PauseOk { s.reading with rxActive := false, rxEndPending := false } k := fun hb =>
    ⟨hcore, fun _ => .inr hresumed, (fun b hb' => by cases hb.symm.trans hb'),
      (fun hd => by cases hd), hnone hb⟩
  unfold State.messageComplete
  rw [hactive, Bool.not_true, if_neg Bool.false_ne_true]
  extract_lets
  split
  · exact .failing fun hf => absurd hf (Bool.eq_false_iff.mp hcore.notFailed)
  split
  · rename_i hs
    have hb := hmode (by simpa using hs)
    split
    · exact .settled (hok hb)
    · exact PauseInv.onMessage (hok hb)
  split
  · rename_i hb
    exact .settled (hok hb)
  · rename_i b hb
    refine @PauseInv.deliverBody _ _ (Body.completed b) rfl ?_ (fun hd => by cases hd) ?_
    · exact (hcore.setBody hb (completed_sound (hcore.body b hb)) (fun _ => completed_end b)
        fun _ ha _ => (by cases ha)).push rfl
    · exact (hsome b hb).frame (.push k rfl)

/-- A body that failed. -/
def Body.failedWith (b : Body) (err : Nat) (reason : String) : Body :=
  { (if b.end_ = .None then
      { b with end_ := .Error, err := err, reason := reason, partialText := [] }
    else b) with messageDone := true }

/-- What a failed body keeps, and that it has ended. -/
theorem failedWith_eq (b : Body) (err : Nat) (reason : String) :
    (Body.failedWith b err reason).end_ ≠ .None ∧ (Body.failedWith b err reason).q = b.q
      ∧ (Body.failedWith b err reason).qBytes = b.qBytes
      ∧ (Body.failedWith b err reason).reads = b.reads
      ∧ (Body.failedWith b err reason).cancelled = b.cancelled
      ∧ (Body.failedWith b err reason).endDelivered = b.endDelivered := by
  unfold Body.failedWith
  split
  · exact ⟨ReadEnd.noConfusion, rfl, rfl, rfl, rfl, rfl⟩
  · exact ⟨‹_›, rfl, rfl, rfl, rfl, rfl⟩

/-- A body that fails stays sound. -/
theorem failedWith_sound {b : Body} (hb : BodySound b) (err : Nat) (reason : String) :
    BodySound (Body.failedWith b err reason) := by
  obtain ⟨hend, hq, hqBytes, -, hcancelled, hdelivered⟩ := failedWith_eq b err reason
  refine ⟨?_, ⟨fun _ => rfl, fun _ => hend⟩, fun hd => ⟨?_, hend⟩, fun hc => ?_⟩
  · rw [hq, hqBytes]
    exact hb.bytes
  · rw [hq]
    exact (hb.delivered (hdelivered ▸ hd)).1
  · rw [hq]
    exact hb.cancelled (hcancelled ▸ hc)

/-- The body failed, while the inflater is not pumping. -/
theorem PauseInv.bodyFail {s : State} {k : List Stmt} {b : Body} {err : Nat} {reason : String}
    (hb : s.rx.body = some b)
    (hcore : PauseCore { s.reading with body := some (Body.failedWith b err reason) } k)
    (hpumping : s.rx.pumpingInflate = false)
    (hphase : Phase { s.reading with body := some (Body.failedWith b err reason) } k) :
    PauseInv s (.bodyFail err reason :: k) := by
  refine .next (fun h => by cases h) fun c => ?_
  show PauseAfter (s.bodyFail err reason) k
  rw [State.bodyFail, hb]
  exact @PauseInv.deliverBody _ _ (Body.failedWith b err reason) rfl hcore
    (fun _ => .inr (.inl hpumping)) hphase

end WsCore

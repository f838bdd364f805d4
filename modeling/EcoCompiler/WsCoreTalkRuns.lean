import EcoCompiler.WsCoreTalkPieces

/-! # What a WebSocket sends: every run

    * `WsCore.TalkInv.enterIdle`, `WsCore.TalkInv.enterCallback` — every entry point keeps
      `TalkInv`;
    * `WsCore.pumpWrites_legal` — in every run in which no graceful Close is queued and no
      ping is sent after a Close was handed over, the frames handed to `portWrite` are a
      legal conversation. -/

namespace WsCore

open State
open WsFrame (kOpContinuation kOpText kOpBinary kOpClose kOpPing kOpPong)

/-! ## Entry points -/

/-- A change that `SendInv` does not see leaves the stack well formed. -/
theorem StackOk.of_sending {s s' : State} {t : Talk} {k : List Stmt} (h : StackOk s t k)
    (hs : s'.sending = s.sending) (hinput : s.rx.inputDone = true → s'.rx.inputDone = true) :
    StackOk s' t k := by
  have hgone : s'.tr.gone = s.tr.gone := congrArg (fun x : Sending => x.tr.gone) hs
  have hqueued : s'.cl.closeQueued = s.cl.closeQueued := congrArg Sending.closeQueued hs
  have houtQ : s'.wr.outQ = s.wr.outQ := congrArg Sending.outQ hs
  refine
    { closes := ?_
      pushing := fun hpos => hqueued.trans (h.pushing hpos)
      echo := ?_
      posting := ?_
      failing := ?_
      reporting := h.reporting
      echoing := fun code hc => hinput (h.echoing code hc) }
  · rw [closesToCome, houtQ]
    exact h.closes
  · intro pre code post hk
    obtain ⟨hq, hrest⟩ := h.echo pre code post hk
    refine ⟨hqueued.trans hq, fun hg => ?_⟩
    obtain ⟨hopen, hi, hempty, hidle⟩ := hrest (hgone.symm.trans hg)
    exact ⟨hopen, hinput hi, houtQ.trans hempty, hidle⟩
  · rcases h.posting with hg | hsl | hp
    · exact .inl (hgone.trans hg)
    · exact .inr (.inl (hsl.of_sending hs))
    · exact .inr (.inr hp)
  · intro hf
    rcases h.failing ((congrArg Sending.failed hs).symm.trans hf) with hg | hsl | hp
    · exact .inl (hgone.trans hg)
    · exact .inr (.inl (hsl.of_sending hs))
    · exact .inr (.inr hp)

/-- A quiet entry point, which pushes nothing or finds no echo pending. -/
theorem TalkInv.enterQuiet {s : State} {t : Talk} {k : List Stmt} {e : Exec}
    (hsend : SendInv s t) (hstack : StackOk s t k) (hquiet : Quiet s e)
    (hecho : e.2 = [] ∨ ∀ pre code post, k = pre ++ .sendEcho code :: post → s.tr.gone = true) :
    TalkInv e.1 (e.2 ++ k) := by
  rcases hecho with hnil | hecho
  · rw [hnil]
    exact ⟨t, hsend.of_sending hquiet.same, hstack.of_sending hquiet.same hquiet.input⟩
  · exact TalkInv.quiet hsend (hstack.push hecho) hquiet hecho rfl rfl

theorem no_echo_nil (P : Prop) :
    ∀ pre code post, ([] : List Stmt) = pre ++ .sendEcho code :: post → P := by
  intro pre code post hk
  cases pre with
  | nil => cases hk
  | cons q pre => cases hk

/-- The stack of an entry point between entry points. -/
theorem StackOk.enter {s s' : State} {t t' : Talk} {ks : List Stmt} (h : StackOk s t [])
    (htame : isTame ks = true)
    (hcount : s'.wr.outQ.countP OutItem.isClose ≤ s.wr.outQ.countP OutItem.isClose)
    (hqueued : s.cl.closeQueued = true → s'.cl.closeQueued = true)
    (hgone : s.tr.gone = true → s'.tr.gone = true)
    (hsealed : Sealed s → s'.tr.gone = true ∨ Sealed s')
    (hfailed : s'.cl.failed = true → s.cl.failed = true ∨ ks.any Stmt.isSealer = true)
    (hinput : s.rx.inputDone = true → s'.rx.inputDone = true) : StackOk s' t' (ks ++ []) :=
  (h.push (no_echo_nil _)).next (no_echo_nil _) (isTame_calm htame _)
    (.inr (.inr (isTame_posts htame))) (Nat.le_trans (Nat.add_le_add_right hcount _) h.closes)
    hqueued hgone hsealed (by rintro (hp | hp) <;> cases hp) hfailed hinput

/-- Between entry points a failed connection sends no data. -/
theorem StackOk.failed_sealed {s : State} {t : Talk} (h : StackOk s t [])
    (hf : s.cl.failed = true) : s.tr.gone = true ∨ Sealed s := by
  rcases h.failing hf with hg | hs | hany
  · exact .inl hg
  · exact .inr hs
  · cases hany

/-- The transport gone. -/
theorem TalkInv.setGone {s s' : State} {t : Talk} {k ks : List Stmt} (hsend : SendInv s t)
    (hstack : StackOk s t k) (hgone : s'.tr.gone = true)
    (hs : { s with tr := s'.tr }.sending = s'.sending)
    (hinput : s.rx.inputDone = true → s'.rx.inputDone = true) (htame : isTame ks = true) :
    TalkInv s' (ks ++ k) := by
  have hqueued : s'.cl.closeQueued = s.cl.closeQueued := (congrArg Sending.closeQueued hs).symm
  have hmid : StackOk s' t k :=
    { closes := by
        rw [closesToCome, ← show s.wr.outQ = s'.wr.outQ from congrArg Sending.outQ hs]
        exact hstack.closes
      pushing := fun hpos => hqueued.trans (hstack.pushing hpos)
      echo := fun pre code post hk => ⟨hqueued.trans (hstack.echo pre code post hk).1,
        fun hg => absurd hgone (Bool.eq_false_iff.mp hg)⟩
      posting := .inl hgone
      failing := fun _ => .inl hgone
      reporting := hstack.reporting
      echoing := fun code hc => hinput (hstack.echoing code hc) }
  exact TalkInv.quiet (e := (s', ks)) (hsend.setGone hgone hs) (hmid.push fun _ _ _ _ => hgone)
    (Quiet.of rfl id htame) (fun _ _ _ _ => hgone) rfl rfl

theorem TalkInv.portClosed {s : State} {t : Talk} {k : List Stmt} (hsend : SendInv s t)
    (hstack : StackOk s t k) : TalkInv s.portClosed.1 (s.portClosed.2 ++ k) :=
  TalkInv.setGone hsend hstack rfl rfl id rfl

/-- A graceful Close begun. -/
theorem TalkInv.queueGracefulClose {s : State} {t : Talk} {code : Nat} {reason : Bytes}
    (hsend : SendInv s t) (hstack : StackOk s t []) :
    TalkInv (s.queueGracefulClose code reason).1 ((s.queueGracefulClose code reason).2 ++ []) := by
  unfold State.queueGracefulClose
  dsimp only
  split
  · exact ⟨t, hsend, hstack⟩
  rename_i hqueued
  have hnone : s.wr.outQ.countP OutItem.isClose = 0 :=
    List.countP_eq_zero.mpr fun item hitem hc => hqueued (hsend.closeQueued item hitem hc)
  let s' : State := State.discardData { s with cl.closeQueued := true, wr.writeClosed := true }
  refine ⟨t, SendInv.of_sending (hsend.shutWritable.markQueued rfl) rfl, ?_⟩
  -- the Close is pushed at the bottom of what is pushed, so it comes last
  have hmid : ∀ mid : List Stmt, isTame mid = true → mid.any Stmt.isPushClose = false →
      StackOk s' t ((mid ++ [.releaseHold, .pushClose code reason]) ++ []) := by
    intro mid htame hpush
    have hcount : (mid ++ [Stmt.releaseHold, .pushClose code reason]).countP Stmt.isPushClose
        = 1 := by
      rw [List.countP_append, List.countP_eq_zero.mpr fun p hp =>
        (List.any_eq_false.mp hpush) p hp]
      rfl
    have hmem : ∀ p ∈ mid ++ [Stmt.releaseHold, .pushClose code reason],
        p.isCalm = true ∨ p = .pushClose code reason := by
      intro p hp
      rcases List.mem_append.mp hp with hp | hp
      · exact .inl (List.all_eq_true.mp (Bool.and_eq_true_iff.mp htame).1 p hp)
      · rcases List.mem_pair.mp hp with rfl | rfl
        · exact .inl rfl
        · exact .inr rfl
    rw [List.append_nil]
    refine
      { closes := ?_
        pushing := fun _ => rfl
        echo := ?_
        posting := .inr (.inr (sealedPosts_append (isTame_posts htame) rfl))
        failing := fun hf => (hstack.failed_sealed hf).imp id fun hs => .inl ⟨rfl, hs.2⟩
        reporting := ?_
        echoing := ?_ }
    · rw [closesToCome, show s'.wr.outQ = s.wr.outQ from rfl, hnone, hcount]
    · intro pre code' post hk
      rcases hmem (.sendEcho code') (hk ▸ List.mem_append_right _ List.mem_cons_self) with hc | hc
      · cases hc
      · cases hc
    · rintro p hp rfl
      rcases hmem _ hp with hc | hc
      · cases hc
      · cases hc
    · intro code' hp
      rcases hmem _ hp with hc | hc
      · cases hc
      · cases hc
  -- a message being received is given up before
  split
  · refine hmid _ (failBody_tame _ _ _ rfl) ?_
    rw [failBody]
    split <;> rfl
  · exact hmid [] rfl rfl

/-- The `done` of a write called. -/
theorem TalkInv.written {s : State} {t : Talk} {k : List Stmt} {done : Completion} (i err : Nat)
    (hsend : SendInv s t) (hstack : StackOk s t k) (hdone : s.out.writes[i]? = some done) :
    TalkInv ({ s with out.writes := s.out.writes.eraseIdx i }.complete done err).1
      (({ s with out.writes := s.out.writes.eraseIdx i }.complete done err).2 ++ k) := by
  let s₁ : State := { s with out.writes := s.out.writes.eraseIdx i }
  have hsend₁ : SendInv s₁ t :=
    hsend.mono ⟨rfl, rfl, rfl, fun _ item _ => item.keeps_of_eq rfl, hsend.streams,
      fun _ hs => hs, rfl, rfl, rfl, id, fun _ hp => hp, List.mem_of_mem_eraseIdx⟩ .inl .inl
  have hstack₁ : StackOk s₁ t k :=
    { closes := hstack.closes
      pushing := hstack.pushing
      echo := hstack.echo
      posting := hstack.posting
      failing := hstack.failing
      reporting := hstack.reporting
      echoing := hstack.echoing }
  show TalkInv (s₁.complete done err).1 ((s₁.complete done err).2 ++ k)
  by_cases hclose : done = .closeFrameWritten ∧ err = 0
  · obtain ⟨rfl, rfl⟩ := hclose
    have hclosed : t.closed = true := hsend.written (List.mem_of_getElem? hdone)
    have hecho : ∀ pre code post, k = pre ++ .sendEcho code :: post → s₁.tr.gone = true := by
      intro pre code post hk
      cases hg : s₁.tr.gone with
      | true => rfl
      | false =>
          have hopen := ((hstack₁.echo pre code post hk).2 hg).1
          rw [hclosed] at hopen
          cases hopen
    have hsend₂ : SendInv { s₁ with cl.closeWritten := true } t :=
      hsend₁.mono ⟨rfl, rfl, rfl, fun _ item _ => item.keeps_of_eq rfl, hsend₁.streams,
        fun _ hs => hs, rfl, rfl, rfl, id, fun _ hp => hp, id⟩ (fun _ => .inr hclosed) .inl
    have hfinish : isTame [.finishIfDone] = true := rfl
    refine ⟨t, hsend₂.of_sending rfl, (hstack₁.push hecho).next hecho (isTame_calm hfinish _)
      (.inr (.inr rfl)) hstack₁.closes id id (fun hs => .inr hs) ?_ .inl id⟩
    rintro (hp | hp) <;> cases hp
  · refine TalkInv.enterQuiet hsend₁ hstack₁ (complete_quiet s₁ done ?_) (.inl ?_)
    · exact fun hd he => hclose ⟨hd, he⟩
    · cases done with
      | closeFrameWritten =>
          show (s₁.closeFrameWritten err).2 = []
          rw [closeFrameWritten, if_pos fun he => hclose ⟨rfl, he⟩]
      | writeResult chan token size => rfl
      | streamClosed chan token => rfl

theorem TalkInv.enterWritten {s : State} {t : Talk} {k : List Stmt} (ch : Choice) (i err : Nat)
    (hsend : SendInv s t) (hstack : StackOk s t k) :
    TalkInv (s.enter ch (.written i err)).1 ((s.enter ch (.written i err)).2 ++ k) := by
  rw [State.enter]
  cases hdone : s.out.writes[i]? with
  | none => exact ⟨t, hsend, hstack⟩
  | some done => exact TalkInv.written i err hsend hstack hdone

/-- What an entry point that queues data, or changes a stream, leaves alone. -/
structure QueueFrame (s : State) (e : Exec) : Prop where
  closes : e.1.wr.outQ.countP OutItem.isClose ≤ s.wr.outQ.countP OutItem.isClose
  gone : e.1.tr.gone = s.tr.gone
  sealed : Sealed s → Sealed e.1
  cl : e.1.cl = s.cl
  rx : s.rx.inputDone = true → e.1.rx.inputDone = true
  tame : isTame e.2 = true

/-- A change that leaves the queue as it is. -/
theorem QueueFrame.of {s s' : State} {ks : List Stmt} (houtQ : s'.wr.outQ = s.wr.outQ)
    (hclosed : s'.wr.writeClosed = s.wr.writeClosed) (hgone : s'.tr.gone = s.tr.gone)
    (hcl : s'.cl = s.cl) (hrx : s.rx.inputDone = true → s'.rx.inputDone = true)
    (htame : isTame ks = true) : QueueFrame s (s', ks) where
  closes := by
    rw [houtQ]
  gone := hgone
  sealed := fun hs => ⟨hclosed.trans hs.1, houtQ ▸ hs.2⟩
  cl := hcl
  rx := hrx
  tame := htame

/-- An entry queued while the writable is open. -/
theorem QueueFrame.enqueue {s s' : State} {ks : List Stmt} {item : OutItem}
    (houtQ : s'.wr.outQ = s.wr.outQ ++ [item]) (hitem : item.isClose = false)
    (hopen : s.wr.writeClosed = false) (hgone : s'.tr.gone = s.tr.gone) (hcl : s'.cl = s.cl)
    (hrx : s.rx.inputDone = true → s'.rx.inputDone = true) (htame : isTame ks = true) :
    QueueFrame s (s', ks) where
  closes := by
    rw [houtQ, List.countP_append, List.countP_singleton, hitem]
    exact Nat.le_refl _
  gone := hgone
  sealed := by
    intro hs
    rw [hs.1] at hopen
    cases hopen
  cl := hcl
  rx := hrx
  tame := htame

theorem TalkInv.queue {s : State} {t : Talk} {e : Exec} (hsend : SendInv e.1 t)
    (hstack : StackOk s t []) (hframe : QueueFrame s e) : TalkInv e.1 (e.2 ++ []) :=
  ⟨t, hsend, hstack.enter hframe.tame hframe.closes (fun hc => hframe.cl ▸ hc)
    (fun hg => hframe.gone.trans hg) (fun hs => .inr (hframe.sealed hs))
    (fun hf => .inl (hframe.cl ▸ hf)) hframe.rx⟩

theorem attach_frame (c : Choice) (s : State) : QueueFrame s (s.attach c) := by
  unfold State.attach
  dsimp only
  split <;> exact QueueFrame.of rfl rfl rfl rfl id rfl

theorem reqWrite_frame (s : State) (chan token : Nat) (tag : Int) (bytes : Bytes) :
    QueueFrame s (s.reqWrite chan token tag bytes) := by
  rw [State.reqWrite]
  split
  · exact QueueFrame.of rfl rfl rfl rfl id rfl
  · rename_i hclosed
    rw [Bool.not_eq_true, Bool.or_eq_false_iff] at hclosed
    exact QueueFrame.enqueue rfl rfl hclosed.1 rfl rfl id rfl

theorem emplaceStream_wr (s : State) (seq : Nat) (st : OutStream) :
    (s.emplaceStream seq st).wr.outQ = s.wr.outQ
      ∧ (s.emplaceStream seq st).wr.writeClosed = s.wr.writeClosed
      ∧ (s.emplaceStream seq st).tr = s.tr ∧ (s.emplaceStream seq st).cl = s.cl
      ∧ (s.emplaceStream seq st).rx = s.rx := by
  rw [emplaceStream]
  split <;> exact ⟨rfl, rfl, rfl, rfl, rfl⟩

theorem openOutgoing_frame (s : State) (seq opcode : Nat) :
    QueueFrame s (s.openOutgoing seq opcode) := by
  unfold State.openOutgoing
  dsimp only
  split
  · obtain ⟨houtQ, hwc, htr, hcl, hrx⟩ := emplaceStream_wr
      { s with out.opened := s.out.opened ++ [seq] } seq (s.newStream opcode true)
    exact QueueFrame.of houtQ hwc (congrArg Transport.gone htr) hcl
      (fun hi => (congrArg Input.inputDone hrx).trans hi) rfl
  · rename_i hclosed
    rw [Bool.not_eq_true, Bool.or_eq_false_iff] at hclosed
    obtain ⟨houtQ, hwc, htr, hcl, hrx⟩ := emplaceStream_wr
      { s with out.opened := s.out.opened ++ [seq] } seq (s.newStream opcode false)
    exact QueueFrame.enqueue (congrArg (· ++ _) houtQ) rfl hclosed.1 (congrArg Transport.gone htr)
      hcl
      (fun hi => (congrArg Input.inputDone hrx).trans hi) rfl

theorem outWrite_frame (s : State) (seq chan token : Nat) (bytes : Bytes) :
    QueueFrame s (s.outWrite seq chan token bytes) := by
  rw [State.outWrite]
  repeat' split
  all_goals exact QueueFrame.of rfl rfl rfl rfl id rfl

theorem outClose_frame (s : State) (seq chan token : Nat) :
    QueueFrame s (s.outClose seq chan token) := by
  rw [State.outClose]
  split
  · split <;> exact QueueFrame.of rfl rfl rfl rfl id rfl
  · exact QueueFrame.of rfl rfl rfl rfl id rfl

theorem outAbort_frame (s : State) (seq : Nat) : QueueFrame s (s.outAbort seq) := by
  rw [State.outAbort]
  split
  · exact QueueFrame.of rfl rfl rfl rfl id rfl
  · dsimp only
    split
    · exact QueueFrame.of rfl rfl rfl rfl id rfl
    · exact
        { closes := List.eraseP_sublist.countP_le
          gone := rfl
          sealed := fun hs => ⟨hs.1, fun item hitem => hs.2 item (List.mem_of_mem_eraseP hitem)⟩
          cl := rfl
          rx := id
          tame := rfl }

/-- The pong deadline passed. -/
theorem TalkInv.pongTimer {s : State} {t : Talk} (c : Choice) (hsend : SendInv s t)
    (hstack : StackOk s t []) : TalkInv (s.pongTimer c).1 ((s.pongTimer c).2 ++ []) := by
  have hquiet : ∀ {e : Exec}, Quiet s e → TalkInv e.1 (e.2 ++ []) := fun hq =>
    TalkInv.enterQuiet hsend hstack hq (.inr (no_echo_nil _))
  unfold State.pongTimer State.heartbeatTimeout
  dsimp only
  split
  · exact hquiet (Quiet.of rfl id rfl)
  · split
    · split
      · exact hquiet (Quiet.of rfl id rfl)
      · refine TalkInv.failWith (t := t) (p := .checkPause) ?_ ?_ rfl rfl rfl _ _ _ _ _ _
        · exact hsend.of_sending rfl
        · exact (hstack.push (no_echo_nil _)).of_sending rfl id
    · exact hquiet (Quiet.of rfl id rfl)

/-- An entry point called between entry points keeps `TalkInv`. -/
theorem TalkInv.enterIdle {s : State} {t : Talk} {e : Entry} (ch : Choice) (hsend : SendInv s t)
    (hstack : StackOk s t []) (hadmitted : e.Admitted s) :
    TalkInv (s.enter ch e).1 ((s.enter ch e).2 ++ []) := by
  -- what is quiet sends nothing and queues nothing
  have hquiet : ∀ {e : Exec}, Quiet s e → TalkInv e.1 (e.2 ++ []) := fun hq =>
    TalkInv.enterQuiet hsend hstack hq (.inr (no_echo_nil _))
  -- an entry point is quiet, or changes the queue only, or begins a Close
  cases e with
  | attach => exact TalkInv.queue (hsend.attach ch) hstack (attach_frame ch s)
  | detachPort => exact TalkInv.setGone hsend hstack rfl rfl id rfl
  | portData data => exact hquiet (portData_quiet ch s data)
  | portEof => exact hquiet ((portEof_quiet _).after rfl id)
  | portError err reason => exact hquiet (Quiet.of rfl id rfl)
  | portWritable => exact hquiet (pumpWrites_quiet s)
  | portTimer timer =>
      have hsend' : SendInv { s with
          out.deadline := Function.update s.out.deadline timer 0 } t := hsend.of_sending rfl
      have hstack' : StackOk { s with
          out.deadline := Function.update s.out.deadline timer 0 } t [] := hstack.of_sending rfl id
      cases timer with
      | heartbeat => exact hquiet ((heartbeatTimer_quiet ch _).after rfl id)
      | pong => exact TalkInv.pongTimer ch hsend' hstack'
      | closeHandshake => exact hquiet (Quiet.of rfl id rfl)
  | portClosed => exact TalkInv.portClosed (hsend.of_sending rfl) (hstack.of_sending rfl id)
  | written i err => exact TalkInv.enterWritten ch i err hsend hstack
  | reqRead chan token => exact hquiet (reqRead_quiet s chan token)
  | readClose chan token => exact hquiet (Quiet.of rfl id rfl)
  | readShutdown => exact hquiet (readShutdown_quiet s)
  | reqWrite chan token tag bytes =>
      exact TalkInv.queue (hsend.reqWrite chan token tag bytes) hstack
        (reqWrite_frame s chan token tag bytes)
  | writeClose chan token =>
      show TalkInv (s.writeClose chan token).1 ((s.writeClose chan token).2 ++ [])
      rw [State.writeClose]
      split
      · exact hquiet (Quiet.of rfl id rfl)
      · exact TalkInv.queueGracefulClose (hsend.of_sending rfl) (hstack.of_sending rfl id)
  | writeShutdown =>
      show TalkInv s.writeShutdown.1 (s.writeShutdown.2 ++ [])
      rw [State.writeShutdown]
      split <;> exact hquiet (Quiet.of rfl id rfl)
  | bodyReady seq pairId => exact hquiet (bodyReady_quiet s seq pairId)
  | bodyReqRead seq chan token => exact hquiet (bodyReqRead_quiet s seq chan token)
  | bodyClose chan token => exact hquiet (Quiet.of rfl id rfl)
  | bodyCancel seq => exact hquiet (bodyCancel_quiet s seq)
  | openOutgoing seq opcode =>
      exact TalkInv.queue (hsend.openOutgoing hadmitted.1 hadmitted.2) hstack
        (openOutgoing_frame s seq opcode)
  | outWrite seq chan token bytes =>
      exact TalkInv.queue (hsend.outWrite seq chan token bytes) hstack
        (outWrite_frame s seq chan token bytes)
  | outClose seq chan token =>
      exact TalkInv.queue (hsend.outClose seq chan token) hstack (outClose_frame s seq chan token)
  | outAbort seq =>
      exact TalkInv.queue (hsend.outAbort seq hstack.failed_sealed) hstack (outAbort_frame s seq)
  | startClose code reason token =>
      show TalkInv (s.startClose code reason token).1 ((s.startClose code reason token).2 ++ [])
      rw [State.startClose]
      split
      · exact hquiet (Quiet.of rfl id rfl)
      · exact TalkInv.queueGracefulClose (hsend.of_sending rfl) (hstack.of_sending rfl id)
  | startPing token => exact hquiet (startPing_quiet ch s token)
  | abortNow =>
      show TalkInv (if s.live then s.portAbort else s.portClosed : Exec).1
        ((if s.live then s.portAbort else s.portClosed : Exec).2 ++ [])
      split
      · exact hquiet (e := s.portAbort) (Quiet.of rfl id rfl)
      · exact TalkInv.portClosed hsend hstack

/-- An idle piece pushed. -/
theorem StackOk.pushIdle {s : State} {t : Talk} {p : Stmt} {k : List Stmt} (h : StackOk s t k)
    (hp : p.isIdle = true) : StackOk s t (p :: k) := by
  -- an idle piece is none of those that the clauses are about
  have hother : p.isPushClose = false ∧ p.isPostClosed = false
      ∧ p ≠ .complete .closeFrameWritten 0 ∧ (∀ code, .sendEcho code ≠ p)
      ∧ ∀ code, .closeEcho code ≠ p := by
    cases p with
    | inPort =>
      exact ⟨rfl, rfl, (fun h => by cases h), (fun _ h => (by cases h)), fun _ h => (by cases h)⟩
    | pumpLoop =>
        exact ⟨rfl, rfl, (fun h => by cases h), (fun _ h => (by cases h)), fun _ h => (by cases h)⟩
    | _ => cases hp
  obtain ⟨hpush, hposted, hwritten, hsend, hecho⟩ := hother
  have hcount : (p :: k).countP Stmt.isPushClose = k.countP Stmt.isPushClose :=
    List.countP_cons_of_neg (Bool.eq_false_iff.mp hpush)
  refine
    { closes := ?_
      pushing := fun hpos => h.pushing (hcount ▸ hpos)
      echo := ?_
      posting := h.posting.imp id (Or.imp id fun hk => ?_)
      failing := fun hf => (h.failing hf).imp id (Or.imp id fun hany => ?_)
      reporting := ?_
      echoing := ?_ }
  · rw [closesToCome, hcount]
    exact h.closes
  · intro pre code post hk
    cases pre with
    | nil => exact absurd (List.cons.inj hk).1.symm (hsend code)
    | cons q pre =>
        obtain ⟨rfl, htail⟩ := List.cons.inj hk
        obtain ⟨hqueued, hrest⟩ := h.echo pre code post htail
        refine ⟨hqueued, fun hg => ?_⟩
        obtain ⟨hopen, hinput, hempty, hidle⟩ := hrest hg
        refine ⟨hopen, hinput, hempty, fun q' hq' => ?_⟩
        rcases List.mem_cons.mp hq' with rfl | hq'
        · exact hp
        · exact hidle q' hq'
  · rw [sealedPosts, hposted, hk, Bool.not_false, Bool.true_and, Bool.or_true]
  · rw [List.any_cons, hany, Bool.or_true]
  · intro q hq
    rcases List.mem_cons.mp hq with rfl | hq
    · exact hwritten
    · exact h.reporting q hq
  · intro code hq
    rcases List.mem_cons.mp hq with hq | hq
    · exact absurd hq (hecho code)
    · exact h.echoing code hq

/-- A callback of the port keeps `TalkInv`: while an echo is pending, it sends nothing. -/
theorem TalkInv.enterCallback {s : State} {t : Talk} {k : List Stmt} {e : Entry} (ch : Choice)
    (hsend : SendInv s t) (hstack : StackOk s t k) (hcallback : e.isCallback = true) :
    TalkInv (s.enter ch e).1 ((s.enter ch e).2 ++ k) := by
  cases e with
  | portData data =>
      refine TalkInv.enterQuiet hsend hstack (portData_quiet ch s data) ?_
      cases hinput : s.rx.inputDone with
      | true =>
          left
          show (s.portData ch data).2 = []
          rw [State.portData]
          exact congrArg Prod.snd (if_pos hinput)
      | false =>
          right
          intro pre code post hk
          by_contra hg
          have hdone := (((hstack.echo pre code post hk).2 (Bool.eq_false_iff.mpr hg))).2.1
          rw [hinput] at hdone
          cases hdone
  | portWritable =>
      show TalkInv s.pumpWrites.1 (s.pumpWrites.2 ++ k)
      rw [State.pumpWrites]
      split
      · exact ⟨t, hsend, hstack⟩
      · exact ⟨t, hsend.of_sending rfl,
          StackOk.of_sending (s := s) (hstack.pushIdle (p := .pumpLoop) rfl) rfl id⟩
  | written i err => exact TalkInv.enterWritten ch i err hsend hstack
  | portClosed => exact TalkInv.portClosed (hsend.of_sending rfl) (hstack.of_sending rfl id)
  | _ => cases hcallback

/-! ## Runs -/

theorem talkInv_start (cfg : WsConfig) : TalkInv (Config.start cfg).s (Config.start cfg).stack := by
  refine ⟨{}, ?_, ?_⟩
  · exact
      { heard := rfl
        closedSent := fun h => by cases h
        sentQueued := fun h => by cases h
        queuedClosed := fun h => by cases h
        closeQueued := fun _ hitem => absurd hitem List.not_mem_nil
        closeLast := List.Pairwise.nil
        queue := fun _ =>
          { follows := .idle rfl (fun _ hitem => absurd hitem List.not_mem_nil)
              fun _ hitem => absurd hitem List.not_mem_nil
            next := fun _ h => (by cases h)
            nextLe := Nat.le_refl _
            placed := fun _ hitem => absurd hitem List.not_mem_nil
            sorted := List.Pairwise.nil
            seqs := List.nodup_nil
            afterClose := fun h => by cases h
            port := fun h => by cases h }
        written := fun hw => absurd hw List.not_mem_nil
        closeWritten := fun h => by cases h
        posted := fun h => by cases h
        opcodes := fun _ ho => absurd ho List.not_mem_nil
        places := fun _ hs => absurd hs List.not_mem_nil
        streams := fun _ he => absurd he List.not_mem_nil }
  · exact
      { closes := Nat.zero_le _
        pushing := fun h => absurd h (Nat.lt_irrefl _)
        echo := fun pre code post hk => (no_echo_nil False pre code post hk).elim
        posting := .inr (.inr rfl)
        failing := fun h => by cases h
        reporting := fun _ hp => absurd hp List.not_mem_nil
        echoing := fun _ hp => absurd hp List.not_mem_nil }

/-- Every run without a slip keeps `TalkInv`. -/
theorem Runs.talkInv {cfg : WsConfig} {c : Config} (hrun : Runs NoSlip (Config.start cfg) c) :
    TalkInv c.s c.stack := by
  refine hrun.invariant (I := fun c => TalkInv c.s c.stack) (Config.move_of_exec ?_ ?_)
    (talkInv_start cfg)
  · rintro c e ch ⟨t, hsend, hstack⟩ hallows -
    rcases hallows with ⟨hnil, hadmitted⟩ | ⟨-, hcallback⟩
    · rw [hnil] at hstack ⊢
      exact TalkInv.enterIdle ch hsend hstack hadmitted
    · exact TalkInv.enterCallback ch hsend hstack hcallback
  · intro c p k ch hk hinv hslip
    exact TalkInv.exec ch hk hinv hslip

/-- In every run in which no graceful Close is queued and no ping sent after a Close was
    handed over, the frames handed to `portWrite` are a legal conversation. -/
theorem pumpWrites_legal (cfg : WsConfig) (c : Config) (hrun : Runs NoSlip (Config.start cfg) c) :
    Legal c.s := by
  obtain ⟨t, hsend, -⟩ := Runs.talkInv hrun
  rw [Legal, hsend.heard]
  rfl

/-- A clock that stands at 1, a port with room, and no compression. -/
def plainChoice : Choice :=
  { now := 1, room := true, inflate := [], inflateError := "", deflated := none }

/-- A connection just attached. -/
def attachedTalk : Config := (Config.start { streamed := true }).call plainChoice 60 .attach

/-- The same, pinged and with a text stream opened. -/
def openedTalk : Config :=
  (attachedTalk.call plainChoice 60 (.portData [0x89, 0x01, 0x68])).call plainChoice 60
    (.openOutgoing 1 WsFrame.kOpText)

/-- Inside the port call for the first piece of the text. -/
def writingTalk : Config :=
  (openedTalk.after plainChoice (.enter (.outWrite 1 1 1 [104, 105]))).settle plainChoice 2

/-- The port has called back for the pong. -/
def writtenTalk : Config :=
  (writingTalk.after plainChoice (.enter (.written 0 0))).settle plainChoice 60

/-- A binary message has queued behind the text, and the text has ended. -/
def endedTalk : Config :=
  (writtenTalk.call plainChoice 60 (.reqWrite 1 2 2 [33])).call plainChoice 60 (.outClose 1 1 3)

/-- A pong, two pieces of text, a binary message and a Close: five legal frames. -/
theorem pumpWrites_legal_closed :
    (endedTalk.call plainChoice 60 (.startClose 1000 [] 4)).s.out.sent.length = 5 ∧
      Legal (endedTalk.call plainChoice 60 (.startClose 1000 [] 4)).s := by
  have hattached : Runs NoSlip (Config.start { streamed := true }) attachedTalk :=
    Config.runs_call rfl trivial rfl (by decide +kernel)
  have hpinged : Runs NoSlip attachedTalk
      (attachedTalk.call plainChoice 60 (.portData [0x89, 0x01, 0x68])) :=
    Config.runs_call (by decide +kernel) trivial rfl (by decide +kernel)
  have hopened : Runs NoSlip (attachedTalk.call plainChoice 60 (.portData [0x89, 0x01, 0x68]))
      openedTalk :=
    Config.runs_call (by decide +kernel) ⟨by decide +kernel, Or.inl rfl⟩ rfl (by decide +kernel)
  have hwriting : Runs NoSlip openedTalk writingTalk :=
    .head ⟨.enter (.outWrite 1 1 1 [104, 105]), plainChoice, Or.inl ⟨by decide +kernel, trivial⟩,
      rfl, rfl⟩ (Config.runs_settle plainChoice (by decide +kernel))
  have hwritten : Runs NoSlip writingTalk writtenTalk :=
    .head ⟨.enter (.written 0 0), plainChoice, Or.inr ⟨by rfl, rfl⟩, rfl, rfl⟩
      (Config.runs_settle plainChoice (by decide +kernel))
  have hqueued : Runs NoSlip writtenTalk (writtenTalk.call plainChoice 60 (.reqWrite 1 2 2 [33])) :=
    Config.runs_call (by decide +kernel) trivial rfl (by decide +kernel)
  have hended : Runs NoSlip (writtenTalk.call plainChoice 60 (.reqWrite 1 2 2 [33])) endedTalk :=
    Config.runs_call (by decide +kernel) trivial rfl (by decide +kernel)
  have hclosed : Runs NoSlip endedTalk (endedTalk.call plainChoice 60 (.startClose 1000 [] 4)) :=
    Config.runs_call (by decide +kernel) trivial rfl (by decide +kernel)
  have hrun := (((hattached.trans hpinged).trans hopened).trans hwriting).trans hwritten
  exact ⟨by decide +kernel,
    pumpWrites_legal _ _ (((hrun.trans hqueued).trans hended).trans hclosed)⟩

/-- A second Close: an empty text message is held with a frame of a reserved opcode behind
    it, and a graceful Close lets it in. -/
theorem pumpWrites_twoCloses :
    ¬ ∀ cfg c, Runs AnyMove (Config.start cfg) c → Legal c.s := by
  intro h
  have h₁ : Runs AnyMove (Config.start { streamed := true })
      ((Config.start { streamed := true }).call plainChoice 40 .attach) :=
    Config.runs_call rfl trivial trivial fun _ _ => trivial
  have h₂ : Runs AnyMove (Config.start { streamed := true })
      (((Config.start { streamed := true }).call plainChoice 40 .attach).call plainChoice 40
        (.portData [0x81, 0x00, 0x83, 0x00])) :=
    h₁.trans (Config.runs_call (by decide +kernel) trivial trivial fun _ _ => trivial)
  have h₃ : Legal ((((Config.start { streamed := true }).call plainChoice 40 .attach).call
      plainChoice 40 (.portData [0x81, 0x00, 0x83, 0x00])).call plainChoice 60
      (.startClose 1000 [] 7)).s :=
    h { streamed := true } _ (h₂.trans
      (Config.runs_call (by decide +kernel) trivial trivial fun _ _ => trivial))
  exact absurd h₃ (by decide +kernel)

end WsCore

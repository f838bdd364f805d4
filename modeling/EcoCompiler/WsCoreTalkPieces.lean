import EcoCompiler.WsCoreQueueProofs

/-! # What a WebSocket sends: the pieces of the functions

    * `WsCore.StackOk.next` — what a piece may push for the stack to stay well formed;
    * `WsCore.NoSlip` — the moves that do not send after a Close;
    * `WsCore.TalkInv.exec` — every piece that makes no slip keeps `TalkInv`. -/

namespace WsCore

open State
open WsFrame (kOpContinuation kOpText kOpBinary kOpClose kOpPing kOpPong)

/-! ## The listener hears every Close -/

theorem hear_closed {queued : List Nat} {t t' : Talk} {f : Sent}
    (h : Talk.hear queued t f = some t') :
    t'.closed = (t.closed || (f.place.isNone && f.frame.opcode == kOpClose)) := by
  rw [Talk.hear] at h
  by_cases hc : t.closed = true
  · rw [if_pos hc] at h
    cases h
  rw [if_neg hc] at h
  rw [Bool.eq_false_iff.mpr hc, Bool.false_or]
  cases hp : f.place with
  | none =>
      rw [hp] at h
      dsimp only at h
      split at h
      · obtain rfl := Option.some.inj h
        rfl
      · cases h
  | some place =>
      rw [hp] at h
      dsimp only at h
      have ht : t'.closed = t.closed := by
        split at h
        · split at h
          · obtain rfl := Option.some.inj h
            rfl
          · cases h
        · split at h
          · obtain rfl := Option.some.inj h
            rfl
          · cases h
      rw [ht]
      exact Bool.eq_false_iff.mpr hc

theorem SendInv.closed_eq {s : State} {t : Talk} (h : SendInv s t) :
    t.closed = closeHandedOver s := by
  suffices ∀ (sent : List Sent) (t₀ : Talk),
      sent.foldlM (Talk.hear s.out.queued) t₀ = some t → t.closed
        = (t₀.closed || sent.any fun f => f.place.isNone && f.frame.opcode == kOpClose) from
    (this s.out.sent {} h.heard).trans (Bool.false_or _)
  intro sent
  induction sent with
  | nil =>
      intro t₀ h
      obtain rfl := Option.some.inj h
      rw [List.any_nil, Bool.or_false]
  | cons f sent ih =>
      intro t₀ h
      rw [List.foldlM_cons] at h
      obtain ⟨t₁, hf, hrest⟩ := Option.bind_eq_some_iff.mp h
      rw [ih t₁ hrest, hear_closed hf, List.any_cons, Bool.or_assoc]

/-! ## The stack -/

theorem sealedPosts_append {ks k : List Stmt} (hks : sealedPosts ks = true)
    (hk : sealedPosts k = true) : sealedPosts (ks ++ k) = true := by
  induction ks with
  | nil => exact hk
  | cons p ks ih =>
      rw [List.cons_append, sealedPosts]
      rw [sealedPosts] at hks
      cases hsealer : p.isSealer with
      | true => rfl
      | false =>
          rw [hsealer, Bool.false_or, Bool.and_eq_true] at hks
          rw [Bool.false_or, hks.1, Bool.true_and]
          exact ih hks.2

theorem sealedPosts_tail {p : Stmt} {k : List Stmt} (h : sealedPosts (p :: k) = true)
    (hsealer : p.isSealer = false) : sealedPosts k = true ∧ p.isPostClosed = false := by
  rw [sealedPosts, hsealer, Bool.false_or, Bool.and_eq_true, Bool.not_eq_true'] at h
  exact ⟨h.2, h.1⟩

/-- What a piece `p` may push, and change, for the stack to stay well formed. -/
theorem StackOk.next {s s' : State} {t t' : Talk} {p : Stmt} {k ks : List Stmt}
    (h : StackOk s t (p :: k))
    (hecho : ∀ pre code post, k = pre ++ .sendEcho code :: post → s'.tr.gone = true)
    (hcalm : ∀ q ∈ ks, q.isCalm = true ∨ (∃ code, q = .closeEcho code) ∧ s'.rx.inputDone = true)
    (hposts : s'.tr.gone = true ∨ Sealed s' ∨ sealedPosts ks = true)
    (hcount : s'.wr.outQ.countP OutItem.isClose + k.countP Stmt.isPushClose ≤ 1)
    (hqueued : s.cl.closeQueued = true → s'.cl.closeQueued = true)
    (hgone : s.tr.gone = true → s'.tr.gone = true)
    (hsealed : Sealed s → s'.tr.gone = true ∨ Sealed s')
    (hsealer : p.isSealer = true ∨ p.isPostClosed = true → s'.tr.gone = true ∨ Sealed s')
    (hfailed : s'.cl.failed = true → s.cl.failed = true ∨ ks.any Stmt.isSealer = true)
    (hinput : s.rx.inputDone = true → s'.rx.inputDone = true) : StackOk s' t' (ks ++ k) := by
  -- none of what is pushed queues a Close
  have hpush : ks.countP Stmt.isPushClose = 0 := by
    refine List.countP_eq_zero.mpr fun q hq hp => ?_
    rcases hcalm q hq with hc | ⟨⟨code, rfl⟩, -⟩
    · cases q with
      | pushClose code reason => cases hc
      | _ => cases hp
    · cases hp
  refine
    { closes := ?_
      pushing := ?_
      echo := ?_
      posting := ?_
      failing := ?_
      reporting := ?_
      echoing := ?_ }
  · rw [closesToCome, List.countP_append, hpush, Nat.zero_add]
    exact hcount
  · intro hpos
    rw [List.countP_append, hpush, Nat.zero_add] at hpos
    refine hqueued (h.pushing ?_)
    exact Nat.lt_of_lt_of_le hpos ((List.sublist_cons_self p k).countP_le)
  -- no echo is among what is pushed, so it stood on the stack before
  · intro pre code post heq
    rcases List.append_eq_append_iff.mp heq with ⟨pre', rfl, hk⟩ | ⟨c', hks, hc'⟩
    · refine ⟨hqueued (h.echo (p :: pre') code post (by rw [hk]; rfl)).1, fun hg => ?_⟩
      exact absurd (hecho pre' code post hk) (Bool.eq_false_iff.mp hg)
    · cases c' with
      | nil =>
          rw [List.nil_append] at hc'
          refine ⟨hqueued (h.echo [p] code post (by rw [hc']; rfl)).1, fun hg => ?_⟩
          exact absurd (hecho [] code post hc'.symm) (Bool.eq_false_iff.mp hg)
      | cons q c' =>
          obtain ⟨rfl, -⟩ := List.cons.inj hc'
          rcases hcalm (.sendEcho code)
            (hks ▸ List.mem_append_right _ List.mem_cons_self) with hc | ⟨⟨_, hne⟩, -⟩
          · cases hc
          · cases hne
  -- when `p` was the sealer it has sealed now; else the sealer is still further down
  · rcases h.posting with hg | hs | hp
    · exact .inl (hgone hg)
    · exact (hsealed hs).imp id .inl
    · cases hsl : p.isSealer with
      | true => exact (hsealer (.inl hsl)).imp id .inl
      | false =>
          obtain ⟨hk, hne⟩ := sealedPosts_tail hp hsl
          exact hposts.imp id (Or.imp id fun hks => sealedPosts_append hks hk)
  · intro hf
    rcases hfailed hf with hf | hany
    · rcases h.failing hf with hg | hs | hany
      · exact .inl (hgone hg)
      · exact (hsealed hs).imp id .inl
      · rw [List.any_cons, Bool.or_eq_true] at hany
        rcases hany with hp | hany
        · exact (hsealer (.inl hp)).imp id .inl
        · refine .inr (.inr ?_)
          rw [List.any_append, hany, Bool.or_true]
    · refine .inr (.inr ?_)
      rw [List.any_append, hany, Bool.true_or]
  · intro q hq
    rcases List.mem_append.mp hq with hq | hq
    · rintro rfl
      rcases hcalm _ hq with hc | ⟨⟨_, hne⟩, -⟩
      · cases hc
      · cases hne
    · exact h.reporting q (List.mem_cons_of_mem _ hq)
  · intro code hq
    rcases List.mem_append.mp hq with hq | hq
    · rcases hcalm _ hq with hc | ⟨-, hi⟩
      · cases hc
      · exact hi
    · exact hinput (h.echoing code (List.mem_cons_of_mem _ hq))

theorem isTame_calm {ks : List Stmt} (h : isTame ks = true) (i : Prop) :
    ∀ q ∈ ks, q.isCalm = true ∨ (∃ code, q = .closeEcho code) ∧ i := fun q hq =>
  .inl (List.all_eq_true.mp (Bool.and_eq_true_iff.mp h).1 q hq)

theorem isTame_posts {ks : List Stmt} (h : isTame ks = true) : sealedPosts ks = true :=
  (Bool.and_eq_true_iff.mp h).2

/-- A pending echo below a piece that is not idle: the transport is gone. -/
theorem StackOk.echo_gone {s : State} {t : Talk} {p : Stmt} {k : List Stmt}
    (h : StackOk s t (p :: k)) (hp : p.isIdle = false) :
    ∀ pre code post, k = pre ++ .sendEcho code :: post → s.tr.gone = true := by
  intro pre code post hk
  cases hg : s.tr.gone with
  | true => rfl
  | false =>
      have hidle :=
        ((h.echo (p :: pre) code post (by rw [hk]; rfl)).2 hg).2.2.2 p List.mem_cons_self
      rw [hp] at hidle
      cases hidle

/-- A pending echo below any piece, with something in the queue: the transport is gone. -/
theorem StackOk.echo_queue {s : State} {t : Talk} {p : Stmt} {k : List Stmt}
    (h : StackOk s t (p :: k)) (hq : s.wr.outQ ≠ []) :
    ∀ pre code post, k = pre ++ .sendEcho code :: post → s.tr.gone = true := by
  intro pre code post hk
  cases hg : s.tr.gone with
  | true => rfl
  | false => exact absurd ((h.echo (p :: pre) code post (by rw [hk]; rfl)).2 hg).2.2.1 hq

theorem idle_not_sealer {p : Stmt} (h : p.isIdle = true) : p.isSealer = false := by
  cases p with
  | inPort => rfl
  | pumpLoop => rfl
  | _ => cases h

/-- An idle piece popped. -/
theorem StackOk.pop {s : State} {t : Talk} {p : Stmt} {k : List Stmt} (h : StackOk s t (p :: k))
    (hp : p.isIdle = true) : StackOk s t k where
  closes := Nat.le_trans
    (Nat.add_le_add_left ((List.sublist_cons_self p k).countP_le) _) h.closes
  pushing := fun hpos => h.pushing
    (Nat.lt_of_lt_of_le hpos ((List.sublist_cons_self p k).countP_le))
  echo := by
    intro pre code post hk
    obtain ⟨hq, hrest⟩ := h.echo (p :: pre) code post (by rw [hk]; rfl)
    refine ⟨hq, fun hg => ?_⟩
    obtain ⟨hc, hi, ho, hall⟩ := hrest hg
    exact ⟨hc, hi, ho, fun q hq => hall q (List.mem_cons_of_mem _ hq)⟩
  posting := by
    have hsealer : p.isSealer = false := idle_not_sealer hp
    exact h.posting.imp id (Or.imp id fun hs => (sealedPosts_tail hs hsealer).1)
  failing := by
    intro hf
    refine (h.failing hf).imp id (Or.imp id fun hany => ?_)
    rw [List.any_cons] at hany
    have hsealer : p.isSealer = false := idle_not_sealer hp
    rwa [hsealer, Bool.false_or] at hany
  reporting := fun q hq => h.reporting q (List.mem_cons_of_mem _ hq)
  echoing := fun code hq => h.echoing code (List.mem_cons_of_mem _ hq)

/-- The stack under a new entry point that finds no echo pending. -/
theorem StackOk.push {s : State} {t : Talk} {k : List Stmt} (h : StackOk s t k)
    (hecho : ∀ pre code post, k = pre ++ .sendEcho code :: post → s.tr.gone = true) :
    StackOk s t (.checkPause :: k) where
  closes := h.closes
  pushing := h.pushing
  echo := by
    intro pre code post hk
    cases pre with
    | nil => cases (List.cons.inj hk).1
    | cons q pre =>
        have htail := (List.cons.inj hk).2
        exact ⟨(h.echo pre code post htail).1,
          fun hg => absurd (hecho pre code post htail) (Bool.eq_false_iff.mp hg)⟩
  posting := h.posting
  failing := h.failing
  reporting := by
    intro q hq
    rcases List.mem_cons.mp hq with rfl | hq
    · exact fun h => by cases h
    · exact h.reporting q hq
  echoing := by
    intro code hq
    rcases List.mem_cons.mp hq with hq | hq
    · cases hq
    · exact h.echoing code hq

/-! ## Pieces -/

/-- A piece that sends nothing and queues nothing keeps `TalkInv`. -/
theorem TalkInv.quiet {s : State} {t : Talk} {p : Stmt} {k : List Stmt} {e : Exec}
    (hsend : SendInv s t) (hstack : StackOk s t (p :: k)) (hquiet : Quiet s e)
    (hecho : ∀ pre code post, k = pre ++ .sendEcho code :: post → s.tr.gone = true)
    (hsealer : p.isSealer = false) (hposted : p.isPostClosed = false) :
    TalkInv e.1 (e.2 ++ k) := by
  have hs := hquiet.same
  have htr : e.1.tr = s.tr := congrArg Sending.tr hs
  refine ⟨t, hsend.of_sending hs, hstack.next ?_ (isTame_calm hquiet.tame _)
    (.inr (.inr (isTame_posts hquiet.tame))) ?_ ?_ ?_ ?_ ?_ ?_ hquiet.input⟩
  · intro pre code post hk
    rw [htr]
    exact hecho pre code post hk
  · rw [show e.1.wr.outQ = s.wr.outQ from congrArg Sending.outQ hs]
    exact Nat.le_trans (Nat.add_le_add_left ((List.sublist_cons_self p k).countP_le) _)
      hstack.closes
  · exact fun hc => (congrArg Sending.closeQueued hs).trans hc
  · exact fun hg => htr ▸ hg
  · exact fun hsl => .inr (hsl.of_sending hs)
  · rintro (hp | hp)
    · exact absurd hp (Bool.eq_false_iff.mp hsealer)
    · exact absurd hp (Bool.eq_false_iff.mp hposted)
  · exact fun hf => .inl ((congrArg Sending.failed hs).symm.trans hf)

/-- A change of nothing but the frames handed over and what follows from it, by a piece
    that is not idle. -/
theorem StackOk.write {s s' : State} {t t' : Talk} {p : Stmt} {k ks : List Stmt}
    (h : StackOk s t (p :: k)) (hidle : p.isIdle = false) (htame : isTame ks = true)
    (houtQ : s'.wr.outQ = s.wr.outQ ∨ s'.wr.outQ = [])
    (hclosed : s.wr.writeClosed = true → s'.wr.writeClosed = true)
    (hqueued : s.cl.closeQueued = true → s'.cl.closeQueued = true) (htr : s'.tr = s.tr)
    (hsealer : p.isSealer = true ∨ p.isPostClosed = true → s'.tr.gone = true ∨ Sealed s')
    (hfailed : s'.cl.failed = true → s.cl.failed = true ∨ ks.any Stmt.isSealer = true)
    (hinput : s.rx.inputDone = true → s'.rx.inputDone = true) : StackOk s' t' (ks ++ k) := by
  refine h.next ?_ (isTame_calm htame _) (.inr (.inr (isTame_posts htame))) ?_ hqueued ?_ ?_
    hsealer hfailed hinput
  · intro pre code post hk
    rw [htr]
    exact h.echo_gone hidle pre code post hk
  · have hle := Nat.le_trans
      (Nat.add_le_add_left ((List.sublist_cons_self p k).countP_le) _) h.closes
    rcases houtQ with hq | hq
    · rw [hq]
      exact hle
    · rw [hq]
      exact Nat.le_trans (Nat.add_le_add_right (Nat.zero_le _) _) hle
  · exact fun hg => htr ▸ hg
  · rintro ⟨hc, hall⟩
    refine .inr ⟨hclosed hc, ?_⟩
    rcases houtQ with hq | hq
    · rw [hq]
      exact hall
    · rw [hq]
      exact fun _ hitem => absurd hitem List.not_mem_nil

/-- What `writeControl` leaves alone, and what it pushes. -/
theorem writeControl_frame (s : State) (opcode : Nat) (payload : Bytes)
    (done : Option Completion) :
    (s.writeControl opcode payload done).1.wr = s.wr
      ∧ (s.writeControl opcode payload done).1.cl = s.cl
      ∧ (s.writeControl opcode payload done).1.tr = s.tr
      ∧ (s.writeControl opcode payload done).1.rx = s.rx
      ∧ isTame (s.writeControl opcode payload done).2 = true := by
  by_cases hlive : s.live = true
  · rw [writeControl_live hlive]
    exact ⟨rfl, rfl, rfl, rfl, rfl⟩
  · rw [writeControl_dead hlive]
    refine ⟨rfl, rfl, rfl, rfl, ?_⟩
    cases done with
    | none => rfl
    | some done => cases done <;> rfl

/-- The pieces that queue a graceful Close or send a ping. -/
def Stmt.closesOrPings : Stmt → Bool
  | .pushClose _ _ => true
  | .sendPing _ => true
  | .sendHeartbeat => true
  | _ => false

/-- The slip: a graceful Close queued, or a ping sent, after a Close was handed over. -/
def slips (c : Config) : Move → Bool
  | .enter _ => false
  | .run => c.stack.head?.any Stmt.closesOrPings && c.s.live && closeHandedOver c.s

/-- The move is no slip. -/
def NoSlip (c : Config) (m : Move) : Prop := slips c m = false

instance (c : Config) (m : Move) : Decidable (NoSlip c m) := inferInstanceAs (Decidable (_ = _))

theorem NoSlip.open {c : Config} {p : Stmt} {k : List Stmt} (h : NoSlip c .run)
    (hk : c.stack = p :: k) (hp : p.closesOrPings = true) :
    c.s.live = true → closeHandedOver c.s = false := by
  intro hlive
  rw [NoSlip, slips, hk, hlive] at h
  show closeHandedOver c.s = false
  rwa [List.head?_cons, Option.any_some, hp, Bool.true_and, Bool.true_and] at h

/-- A control frame written by a piece keeps `TalkInv`. -/
theorem TalkInv.control {s s₀ : State} {t : Talk} {p : Stmt} {k : List Stmt}
    (hsend : SendInv s t) (hstack : StackOk s t (p :: k)) (hidle : p.isIdle = false)
    (hsealer : p.isSealer = false) (hposted : p.isPostClosed = false)
    (hs : s₀.sending = s.sending) (hrx : s₀.rx = s.rx) {opcode : Nat} (payload : Bytes)
    (hopen : s.live = true → t.closed = false) (hopcode : 8 ≤ opcode)
    (hclose : opcode ≠ kOpClose) :
    TalkInv (s₀.writeControl opcode payload none).1
      ((s₀.writeControl opcode payload none).2 ++ k) := by
  obtain ⟨hwr, hcl, htr, hrx', htame⟩ := writeControl_frame s₀ opcode payload none
  have hlive : s₀.live = s.live := congrArg (fun x : Sending => x.tr.port && !x.tr.gone) hs
  have htr₀ : s₀.tr = s.tr := congrArg Sending.tr hs
  refine ⟨t, (hsend.of_sending hs).writeControl payload (hlive ▸ hopen) hopcode hclose,
    hstack.write hidle htame (.inl ?_) ?_ ?_ (htr.trans htr₀) ?_ ?_ ?_⟩
  · rw [hwr]
    exact congrArg Sending.outQ hs
  · rw [hwr]
    exact fun hc => (congrArg Sending.writeClosed hs).trans hc
  · rw [hcl]
    exact fun hc => (congrArg Sending.closeQueued hs).trans hc
  · rintro (hp | hp)
    · exact absurd hp (Bool.eq_false_iff.mp hsealer)
    · exact absurd hp (Bool.eq_false_iff.mp hposted)
  · rw [hcl]
    exact fun hf => .inl ((congrArg Sending.failed hs).symm.trans hf)
  · rw [hrx', hrx]
    exact id

theorem SendInv.open_of {s : State} {t : Talk} (h : SendInv s t)
    (hslip : s.live = true → closeHandedOver s = false) : s.live = true → t.closed = false :=
  fun hlive => h.closed_eq.trans (hslip hlive)

/-- Once our Close is written, the queue is empty for good. -/
theorem SendInv.written_sealed {s : State} {t : Talk} (h : SendInv s t)
    (hwritten : s.cl.closeWritten = true) : s.tr.gone = true ∨ Sealed s := by
  have hc := h.closeWritten hwritten
  cases hg : s.tr.gone with
  | true => exact .inl rfl
  | false =>
      refine .inr ⟨h.queuedClosed (h.sentQueued (h.closedSent hc)), ?_⟩
      rw [(h.queue hg).afterClose hc]
      exact fun _ hitem => absurd hitem List.not_mem_nil

/-! ## Pieces that write -/

theorem failWith_tame (s : State) (frameCode : Nat) (frameText : Bytes) (infoCode : Nat)
    (infoReason : Bytes) (readErr : Nat) (readReason : String) {e : Exec}
    (he : s.failWith frameCode frameText infoCode infoReason readErr readReason = e) :
    { s with cl.failed := e.1.cl.failed }.sending = e.1.sending
      ∧ (s.rx.inputDone = true → e.1.rx.inputDone = true) ∧ isTame e.2 = true
      ∧ (e.1.cl.failed = true → s.cl.failed = true ∨ e.2.any Stmt.isSealer = true) := by
  subst he
  unfold failWith
  dsimp only
  split
  · exact ⟨rfl, id, rfl, .inl⟩
  · refine ⟨?_, fun _ => ?_, failBody_tame _ _ _ rfl, fun _ => .inr ?_⟩
    · rw [setCloseInfo_sending]
      unfold setCloseInfo
      split <;> rfl
    · rw [setCloseInfo_rx]
      rfl
    · rw [List.any_append]
      exact Bool.or_eq_true_iff.mpr (.inr rfl)

/-- A connection failed by a piece. -/
theorem TalkInv.failWith {s : State} {t : Talk} {p : Stmt} {k : List Stmt}
    (hsend : SendInv s t) (hstack : StackOk s t (p :: k)) (hidle : p.isIdle = false)
    (hsealer : p.isSealer = false) (hposted : p.isPostClosed = false)
    (frameCode : Nat) (frameText : Bytes) (infoCode : Nat) (infoReason : Bytes) (readErr : Nat)
    (readReason : String) :
    TalkInv (s.failWith frameCode frameText infoCode infoReason readErr readReason).1
      ((s.failWith frameCode frameText infoCode infoReason readErr readReason).2 ++ k) := by
  obtain ⟨hs, hinput, htame, hfailed⟩ :=
    failWith_tame s frameCode frameText infoCode infoReason readErr readReason rfl
  generalize s.failWith frameCode frameText infoCode infoReason readErr readReason = e at *
  have hmid : SendInv { s with cl.failed := e.1.cl.failed } t :=
    hsend.mono ⟨rfl, rfl, rfl, fun _ item _ => item.keeps_of_eq rfl, hsend.streams,
      fun _ hs => hs, rfl, rfl, rfl, id, fun _ hp => hp, id⟩ .inl .inl
  refine ⟨t, hmid.of_sending hs.symm, hstack.write hidle htame
    (.inl (congrArg Sending.outQ hs).symm)
    (fun hc => (congrArg Sending.writeClosed hs).symm.trans hc)
    (fun hc => (congrArg Sending.closeQueued hs).symm.trans hc)
    (congrArg Sending.tr hs).symm ?_ hfailed hinput⟩
  rintro (hp | hp)
  · exact absurd hp (Bool.eq_false_iff.mp hsealer)
  · exact absurd hp (Bool.eq_false_iff.mp hposted)

theorem complete_quiet (s : State) (done : Completion) {err : Nat}
    (h : done = .closeFrameWritten → err ≠ 0) : Quiet s (s.complete done err) := by
  cases done with
  | closeFrameWritten =>
      show Quiet s (s.closeFrameWritten err)
      rw [closeFrameWritten, if_pos (h rfl)]
      split <;> exact Quiet.of rfl id rfl
  | writeResult chan token size => exact Quiet.of rfl id rfl
  | streamClosed chan token => exact Quiet.of rfl id rfl

/-- `finishIfDone` keeps `TalkInv`. -/
theorem TalkInv.finishIfDone {s : State} {t : Talk} {k : List Stmt} (hsend : SendInv s t)
    (hstack : StackOk s t (.finishIfDone :: k)) :
    TalkInv s.finishIfDone.1 (s.finishIfDone.2 ++ k) := by
  have hgone := hstack.echo_gone rfl
  rw [State.finishIfDone]
  split
  · exact TalkInv.quiet hsend hstack (Quiet.of rfl id rfl) hgone rfl rfl
  · rename_i hcond
    have hwritten : s.cl.closeWritten = true := by
      cases hw : s.cl.closeWritten with
      | true => rfl
      | false =>
          rw [hw] at hcond
          exact absurd rfl hcond
    have hsealed := hsend.written_sealed hwritten
    refine ⟨t, hsend, hstack.next hgone ?_ (hsealed.imp id .inl)
      (Nat.le_trans (Nat.add_le_add_left ((List.sublist_cons_self _ k).countP_le) _) hstack.closes)
      id id .inr (fun _ => hsealed) .inl id⟩
    intro q hq
    rcases List.mem_pair.mp hq with rfl | rfl
    · exact .inl rfl
    · exact .inl rfl

/-- `postClosed` keeps `TalkInv`. -/
theorem TalkInv.postClosed {s : State} {t : Talk} {k : List Stmt} (hsend : SendInv s t)
    (hstack : StackOk s t (.postClosed :: k)) :
    TalkInv s.postClosed.1 (s.postClosed.2 ++ k) := by
  have hsealed : s.tr.gone = true ∨ Sealed s := by
    rcases hstack.posting with hg | hs | hp
    · exact .inl hg
    · exact .inr hs
    · cases (sealedPosts_tail hp rfl).2
  have hmarked : ∀ s' : State, { s with cl.closedPosted := true }.sending = s'.sending →
      (s.rx.inputDone = true → s'.rx.inputDone = true) → ∀ ks, isTame ks = true →
      TalkInv s' (ks ++ k) := by
    intro s' hs hinput ks htame
    have hmid : SendInv { s with cl.closedPosted := true } t :=
      hsend.mono ⟨rfl, rfl, rfl, fun _ item _ => item.keeps_of_eq rfl, hsend.streams,
        fun _ hs => hs, rfl, rfl, rfl, id, fun _ hp => hp, id⟩ .inl fun _ => .inr hsealed
    refine ⟨t, hmid.of_sending hs.symm, hstack.write rfl htame
      (.inl (congrArg Sending.outQ hs).symm)
      (fun hc => (congrArg Sending.writeClosed hs).symm.trans hc)
      (fun hc => (congrArg Sending.closeQueued hs).symm.trans hc)
      (congrArg Sending.tr hs).symm (fun _ => ?_)
      (fun hf => .inl ((congrArg Sending.failed hs).trans hf)) hinput⟩
    rcases hsealed with hg | hsl
    · exact .inl ((congrArg (fun x : Sending => x.tr.gone) hs).symm.trans hg)
    · exact .inr (Sealed.of_sending (s := { s with cl.closedPosted := true }) hsl hs.symm)
  unfold State.postClosed
  dsimp only
  split
  · exact ⟨t, hsend, hstack.write rfl rfl (.inl rfl) id id rfl (fun _ => hsealed) .inl id⟩
  · have hinput : s.rx.inputDone = true →
        (State.setCloseInfo { s with cl.closedPosted := true } kCloseAbnormal [] false).rx.inputDone
          = true := by
      rw [setCloseInfo_rx]
      exact id
    split
    · refine hmarked _ ?_ ?_ [.inPort, .setDeadline .pong 0, .postClosedEvent] rfl
      · exact (setCloseInfo_sending _ _ _ _).symm
      · exact hinput
    · refine hmarked _ ?_ ?_ [.postClosedEvent] rfl
      · exact (setCloseInfo_sending _ _ _ _).symm
      · exact hinput

/-- The Close sent by `failWith`. -/
theorem TalkInv.failWithClose {s : State} {t : Talk} {frameCode : Nat} {frameText : Bytes}
    {k : List Stmt} (hsend : SendInv s t)
    (hstack : StackOk s t (.failWithClose frameCode frameText :: k)) :
    TalkInv (s.failWithClose frameCode frameText).1
      ((s.failWithClose frameCode frameText).2 ++ k) := by
  obtain ⟨t', hsend', hsealed⟩ := hsend.failWithClose frameCode frameText
  have hframe : (s.failWithClose frameCode frameText).1.wr.outQ = []
      ∧ (s.failWithClose frameCode frameText).1.wr.writeClosed = true
      ∧ (s.cl.closeQueued = true →
        (s.failWithClose frameCode frameText).1.cl.closeQueued = true)
      ∧ (s.failWithClose frameCode frameText).1.tr = s.tr
      ∧ (s.failWithClose frameCode frameText).1.cl.failed = s.cl.failed
      ∧ (s.failWithClose frameCode frameText).1.rx = s.rx
      ∧ isTame (s.failWithClose frameCode frameText).2 = true := by
    rw [failWithClose_eq]
    split
    · exact ⟨rfl, rfl, id, rfl, rfl, rfl, rfl⟩
    · obtain ⟨hwr, hcl, htr, hrx, htame⟩ := writeControl_frame
        { s.sealQueue with cl.closeQueued := true, cl.closeSent := true } kOpClose
        (closePayload frameCode frameText) (some .closeFrameWritten)
      rw [hwr, hcl, htr, hrx]
      exact ⟨rfl, rfl, fun _ => rfl, rfl, rfl, rfl, htame⟩
  obtain ⟨hq, hclosed, hqueued, htr, hfailed, hrx, htame⟩ := hframe
  exact ⟨t', hsend', hstack.write rfl htame (.inr hq) (fun _ => hclosed) hqueued htr
    (fun _ => .inr hsealed) (fun hf => .inl (hfailed ▸ hf)) (hrx ▸ id)⟩

/-- The queue emptied by `ended`. -/
theorem TalkInv.endedRest {s : State} {t : Talk} {k : List Stmt} (hsend : SendInv s t)
    (hstack : StackOk s t (.endedRest :: k)) : TalkInv s.endedRest.1 (s.endedRest.2 ++ k) := by
  have hs : s.endedRest.1.sending = s.sealQueue.sending := by
    show (if s.sealQueue.cl.closeWritten then s.sealQueue
      else s.sealQueue.completeCloses ECANCELED kSocketClosed).sending = _
    split <;> rfl
  have hrx : s.endedRest.1.rx = s.rx := by
    show (if s.sealQueue.cl.closeWritten then s.sealQueue
      else s.sealQueue.completeCloses ECANCELED kSocketClosed).rx = _
    split <;> rfl
  exact ⟨t, hsend.sealQueue.of_sending hs, hstack.write rfl rfl
    (.inr (congrArg Sending.outQ hs)) (fun _ => congrArg Sending.writeClosed hs)
    (fun hc => (congrArg Sending.closeQueued hs).trans hc) (congrArg Sending.tr hs)
    (fun _ => .inr ((sealQueue_sealed s).of_sending hs))
    (fun hf => .inl ((congrArg Sending.failed hs).symm.trans hf)) (hrx ▸ id)⟩

/-- The echo of a Close, sent. -/
theorem TalkInv.sendEcho {s : State} {t : Talk} {code : Nat} {k : List Stmt}
    (hsend : SendInv s t) (hstack : StackOk s t (.sendEcho code :: k)) :
    TalkInv (s.sendEcho code).1 ((s.sendEcho code).2 ++ k) := by
  obtain ⟨hqueued, hopen⟩ := hstack.echo [] code k rfl
  obtain ⟨t', hsend'⟩ := hsend.sendEcho code hqueued fun hg => ⟨(hopen hg).1, (hopen hg).2.2.1⟩
  obtain ⟨hwr, hcl, htr, hrx, htame⟩ := writeControl_frame { s with cl.closeSent := true } kOpClose
    (if code = kCloseNoStatus then [] else closePayload code []) (some .closeFrameWritten)
  refine ⟨t', hsend', hstack.write rfl htame (.inl (congrArg Writable.outQ hwr))
    (fun hc => (congrArg Writable.writeClosed hwr).trans hc)
    (fun hc => (congrArg Closing.closeQueued hcl).trans hc) htr
      (fun hp => by rcases hp with hp | hp <;> cases hp)
    (fun hf => .inl ((congrArg Closing.failed hcl).symm.trans hf))
    (fun hi => (congrArg Input.inputDone hrx).trans hi)⟩

/-- The queue emptied before the echo of a Close. -/
theorem TalkInv.closeEcho {s : State} {t : Talk} {code : Nat} {k : List Stmt} (c : Choice)
    (hsend : SendInv s t) (hstack : StackOk s t (.closeEcho code :: k)) :
    TalkInv (s.closeEcho c code).1 ((s.closeEcho c code).2 ++ k) := by
  have hgone := hstack.echo_gone rfl
  by_cases hqueued : s.cl.closeQueued = true
  · rw [State.closeEcho, if_pos hqueued]
    exact TalkInv.quiet hsend hstack (Quiet.of rfl id rfl) hgone rfl rfl
  have hopen : t.closed = false := Bool.eq_false_iff.mpr fun hc =>
    hqueued (hsend.sentQueued (hsend.closedSent hc))
  have hmarked : SendInv { s.sealQueue with cl.closeQueued := true } t :=
    hsend.sealQueue.markQueued rfl
  have hbelow : StackOk { s.sealQueue with cl.closeQueued := true } t k :=
    @StackOk.write s _ t t _ k [] hstack rfl rfl (.inr rfl) (fun _ => rfl) (fun _ => rfl) rfl
      (fun hp => by rcases hp with hp | hp <;> cases hp) .inl id
  -- The echo pushed: nothing is queued and no Close was handed over.
  have hpushed : ∀ (s' : State) (pre : List Stmt), s'.sending
        = ({ s.sealQueue with cl.closeQueued := true } : State).sending → s'.rx = s.rx →
      (pre = [] ∨ pre = [.inPort]) → TalkInv s' (pre ++ .sendEcho code :: k) := by
    intro s' pre hs hrx hpre
    have hsend' : SendInv s' t := hmarked.of_sending hs
    have hsealed : Sealed s' :=
      Sealed.of_sending (s := { s.sealQueue with cl.closeQueued := true }) (sealQueue_sealed s) hs
    have hinput : s'.rx.inputDone = true := by
      rw [hrx]
      exact hstack.echoing code List.mem_cons_self
    have hidle : ∀ p ∈ pre, p.isIdle = true ∧ p.isPushClose = false
        ∧ p ≠ .complete .closeFrameWritten 0 ∧ ∀ code, p ≠ .closeEcho code := by
      intro p hp
      rcases hpre with rfl | rfl
      · exact absurd hp List.not_mem_nil
      · rw [List.mem_singleton.mp hp]
        exact ⟨rfl, rfl, (fun h => by cases h), fun _ h => (by cases h)⟩
    have hnone : s'.wr.outQ = [] := congrArg Sending.outQ hs
    have hq : s'.cl.closeQueued = true := congrArg Sending.closeQueued hs
    have hpre0 : pre.countP Stmt.isPushClose = 0 :=
      List.countP_eq_zero.mpr fun p hp => Bool.eq_false_iff.mp (hidle p hp).2.1
    refine ⟨t, hsend', ?_⟩
    refine
      { closes := ?_
        pushing := fun _ => hq
        echo := ?_
        posting := .inr (.inl hsealed)
        failing := fun _ => .inr (.inl hsealed)
        reporting := ?_
        echoing := fun _ _ => hinput }
    · rw [closesToCome, hnone, List.countP_append, hpre0]
      have hle := hbelow.closes
      rw [closesToCome] at hle
      rw [List.countP_cons_of_neg (by exact Bool.false_ne_true), Nat.zero_add]
      exact hle
    · intro pre' code' post heq
      refine ⟨hq, fun hg => ⟨hopen, hinput, hnone, ?_⟩⟩
      have hnotin : ∀ pre'' post'', k = pre'' ++ .sendEcho code' :: post'' → False := by
        intro pre'' post'' hk
        have := hgone pre'' code' post'' hk
        rw [show s'.tr.gone = s.tr.gone from congrArg (fun x : Sending => x.tr.gone) hs] at hg
        exact absurd this (Bool.eq_false_iff.mp hg)
      rcases List.append_eq_append_iff.mp heq with ⟨a, hpre', ha⟩ | ⟨c', hks, hc'⟩
      · cases a with
        | nil =>
            rw [hpre', List.append_nil]
            exact fun p hp => (hidle p hp).1
        | cons q a =>
            obtain ⟨-, hk⟩ := List.cons.inj ha
            exact (hnotin a post hk).elim
      · rw [hks] at hidle
        exact fun p hp => (hidle p (List.mem_append_left _ hp)).1
    · intro p hp
      rcases List.mem_append.mp hp with hp | hp
      · exact (hidle p hp).2.2.1
      · rcases List.mem_cons.mp hp with rfl | hp
        · exact fun h => by cases h
        · exact hbelow.reporting p hp
  rw [State.closeEcho, if_neg hqueued]
  show TalkInv (if s.live = true then _ else _ : Exec).1
    ((if s.live = true then _ else _ : Exec).2 ++ k)
  split
  · exact hpushed _ [.inPort] rfl rfl (.inr rfl)
  · exact hpushed _ [] rfl rfl (.inl rfl)

/-- What a turn of the pump leaves alone, and what it pushes. -/
structure PumpFrame (s : State) (e : Exec) : Prop where
  tr : e.1.tr = s.tr
  closeQueued : e.1.cl.closeQueued = s.cl.closeQueued
  failed : e.1.cl.failed = s.cl.failed
  rx : e.1.rx = s.rx
  writeClosed : e.1.wr.writeClosed = s.wr.writeClosed
  closes : e.1.wr.outQ.countP OutItem.isClose ≤ s.wr.outQ.countP OutItem.isClose
  sealed : (∀ item ∈ s.wr.outQ, item.isClose = true) → ∀ item ∈ e.1.wr.outQ, item.isClose = true
  tame : isTame e.2 = true

theorem pumpMessage_frame (c : Choice) {s : State} {place : Nat} {item : DataItem}
    {rest : List OutItem} (hqueue : s.wr.outQ = .message place item :: rest) :
    PumpFrame s (s.pumpMessage c place item rest) := by
  have hcount : rest.countP OutItem.isClose ≤ s.wr.outQ.countP OutItem.isClose := by
    rw [hqueue]
    exact (List.sublist_cons_self _ _).countP_le
  have hhead : ∀ item', (OutItem.message place item' :: rest).countP OutItem.isClose
      ≤ s.wr.outQ.countP OutItem.isClose := fun item' => by
    rw [List.countP_cons_of_neg (by exact Bool.false_ne_true)]
    exact hcount
  have hseal : (∀ i ∈ s.wr.outQ, i.isClose = true) → False := fun hall =>
    by cases hall (.message place item) (hqueue ▸ List.mem_cons_self)
  unfold pumpMessage
  dsimp only
  split
  · exact ⟨rfl, rfl, rfl, rfl, rfl, hhead _, fun hall => (hseal hall).elim, rfl⟩
  · split
    · exact ⟨rfl, rfl, rfl, rfl, rfl, hcount, fun hall => (hseal hall).elim, rfl⟩
    · exact ⟨rfl, rfl, rfl, rfl, rfl, hhead _, fun hall => (hseal hall).elim, rfl⟩

theorem pumpChunk_frame (c : Choice) (s : State) (place seq : Nat) (st : OutStream)
    (chunk : DataItem) (rest : List DataItem) :
    PumpFrame s (s.pumpChunk c place seq st chunk rest) := by
  unfold pumpChunk
  dsimp only
  split
  · exact ⟨rfl, rfl, rfl, rfl, rfl, Nat.le_refl _, id, rfl⟩
  · split
    · exact ⟨rfl, rfl, rfl, rfl, rfl, Nat.le_refl _, id, rfl⟩
    · exact ⟨rfl, rfl, rfl, rfl, rfl, Nat.le_refl _, id, rfl⟩

theorem pumpLoop_frame (c : Choice) (s : State) : PumpFrame s (s.pumpLoop c) := by
  have hstop : PumpFrame s s.pumpStop := ⟨rfl, rfl, rfl, rfl, rfl, Nat.le_refl _, id, rfl⟩
  unfold pumpLoop
  cases hqueue : s.wr.outQ with
  | nil => exact hstop
  | cons item rest =>
      have hcount : rest.countP OutItem.isClose ≤ s.wr.outQ.countP OutItem.isClose := by
        rw [hqueue]
        exact (List.sublist_cons_self _ _).countP_le
      have hseal : (∀ i ∈ s.wr.outQ, i.isClose = true) → ∀ i ∈ rest, i.isClose = true :=
        fun hall i hi => hall i (hqueue ▸ List.mem_cons_of_mem _ hi)
      dsimp only
      split
      · exact hstop
      · cases item with
        | message place item => exact pumpMessage_frame c hqueue
        | close payload => exact ⟨rfl, rfl, rfl, rfl, rfl, hcount, hseal, rfl⟩
        | stream place seq =>
            dsimp only
            split
            · exact ⟨rfl, rfl, rfl, rfl, rfl, hcount, hseal, rfl⟩
            · split
              · exact pumpChunk_frame c s place seq _ _ _
              · split
                · exact ⟨rfl, rfl, rfl, rfl, rfl, hcount, hseal, rfl⟩
                · exact hstop

/-- A turn of the write pump. -/
theorem TalkInv.pumpLoop {s : State} {t : Talk} {k : List Stmt} (c : Choice)
    (hsend : SendInv s t) (hstack : StackOk s t (.pumpLoop :: k)) :
    TalkInv (s.pumpLoop c).1 ((s.pumpLoop c).2 ++ k) := by
  by_cases hempty : s.wr.outQ = []
  · have hstop : s.pumpLoop c = s.pumpStop := by
      rw [State.pumpLoop, hempty]
    rw [hstop]
    refine ⟨t, hsend.of_sending rfl, ?_⟩
    have hpop := hstack.pop rfl
    exact
      { closes := hpop.closes
        pushing := hpop.pushing
        echo := hpop.echo
        posting := hpop.posting
        failing := hpop.failing
        reporting := hpop.reporting
        echoing := hpop.echoing }
  · obtain ⟨t', hsend'⟩ := hsend.pumpLoop c
    have hf := pumpLoop_frame c s
    refine ⟨t', hsend', hstack.next ?_ (isTame_calm hf.tame _) (.inr (.inr (isTame_posts hf.tame)))
      ?_ (fun hc => hf.closeQueued.trans hc) (fun hg => hf.tr ▸ hg) ?_ ?_
      (fun hfl => .inl (hf.failed ▸ hfl)) (fun hi => (congrArg Input.inputDone hf.rx).trans hi)⟩
    · intro pre code post hk
      rw [hf.tr]
      exact hstack.echo_queue hempty pre code post hk
    · exact Nat.le_trans (Nat.add_le_add hf.closes
        ((List.sublist_cons_self _ k).countP_le)) hstack.closes
    · exact fun hsl => .inr ⟨hf.writeClosed.trans hsl.1, hf.sealed hsl.2⟩
    · rintro (hp | hp) <;> cases hp

/-- A graceful Close queued. -/
theorem TalkInv.pushClose {s : State} {t : Talk} {code : Nat} {reason : Bytes} {k : List Stmt}
    (c : Choice) (hsend : SendInv s t) (hstack : StackOk s t (.pushClose code reason :: k))
    (hopen : s.live = true → t.closed = false) :
    TalkInv (s.pushClose c code reason).1 ((s.pushClose c code reason).2 ++ k) := by
  have hqueued : s.cl.closeQueued = true := hstack.pushing (by
    rw [List.countP_cons_of_pos (by rfl)]
    exact Nat.succ_pos _)
  have hle := hstack.closes
  rw [closesToCome, List.countP_cons_of_pos (by rfl)] at hle
  -- one Close is still to come, and this is it
  have hnone : ∀ item ∈ s.wr.outQ, item.isClose = false := by
    have hzero : s.wr.outQ.countP OutItem.isClose = 0 := by omega
    exact fun item hitem => Bool.eq_false_iff.mpr (List.countP_eq_zero.mp hzero item hitem)
  have hsend' := hsend.pushClose c code reason hqueued hnone hopen
  -- where the transport is there, a call of the port sets the handshake timer first
  have hpushed : ∀ (s' : State) (ks : List Stmt),
      s'.sending = State.sending { s with
        wr.outQ := s.wr.outQ ++ [OutItem.close (closePayload code reason)] } →
      s'.rx = s.rx → isTame ks = true → StackOk s' t (ks ++ k) := by
    intro s' ks hs hrx htame
    have houtQ : s'.wr.outQ = s.wr.outQ ++ [OutItem.close (closePayload code reason)] :=
      congrArg Sending.outQ hs
    have htr : s'.tr = s.tr := congrArg Sending.tr hs
    refine hstack.next ?_ (isTame_calm htame _) (.inr (.inr (isTame_posts htame))) ?_
      (fun _ => (congrArg Sending.closeQueued hs).trans hqueued) (fun hg => htr ▸ hg) ?_ ?_
      (fun hf => .inl ((congrArg Sending.failed hs).symm.trans hf)) (hrx ▸ id)
    · intro pre code' post hk
      rw [htr]
      exact hstack.echo_gone rfl pre code' post hk
    · rw [houtQ, List.countP_append]
      show _ + 1 + _ ≤ 1
      omega
    · rintro ⟨hclosed, hall⟩
      refine .inr ⟨(congrArg Sending.writeClosed hs).trans hclosed, ?_⟩
      rw [houtQ]
      intro item hitem
      rcases List.mem_append.mp hitem with hitem | hitem
      · exact hall item hitem
      · rw [List.mem_singleton.mp hitem]
        rfl
    · rintro (hp | hp) <;> cases hp
  refine ⟨t, hsend', ?_⟩
  unfold State.pushClose
  dsimp only
  split
  · exact hpushed _ [.inPort, .pumpWrites] rfl rfl rfl
  · exact hpushed _ [.pumpWrites] rfl rfl rfl

/-- A control frame received. -/
theorem TalkInv.onControl {s : State} {t : Talk} {opcode : Nat} {payload : Bytes} {k : List Stmt}
    (c : Choice) (hsend : SendInv s t)
    (hstack : StackOk s t (.sink (.onControl opcode payload) :: k)) :
    TalkInv (s.onControl c opcode payload).1 ((s.onControl c opcode payload).2 ++ k) := by
  have hgone := hstack.echo_gone rfl
  have hsame : TalkInv s ([] ++ k) :=
    TalkInv.quiet (e := (s, [])) hsend hstack (Quiet.of rfl id rfl) hgone rfl rfl
  unfold State.onControl
  split
  · exact hsame
  split
  -- a Ping is answered unless a Close has been queued
  · split
    · exact hsame
    · rename_i hqueued
      exact TalkInv.control hsend hstack rfl rfl rfl rfl rfl payload
        (fun _ => Bool.eq_false_iff.mpr fun hc =>
          hqueued (hsend.sentQueued (hsend.closedSent hc))) (by decide) (by decide)
  split
  · exact TalkInv.quiet hsend hstack (onPong_quiet c s payload) hgone rfl rfl
  split
  -- a Close received: the echo is pushed, and nothing more is read
  · unfold onClose
    dsimp only
    split
    · exact TalkInv.quiet (e := (_, [.failConnection _ _])) hsend hstack
        (Quiet.of rfl (fun _ => rfl) rfl) hgone rfl rfl
    · rename_i code reason _
      have hs := setCloseInfo_sending
        ({ s with cl.closeReceived := true, rx.inputDone := true }.stopDecoder) code reason true
      have hrx := setCloseInfo_rx
        ({ s with cl.closeReceived := true, rx.inputDone := true }.stopDecoder) code reason true
      generalize State.setCloseInfo _ code reason true = s' at hs hrx ⊢
      have hinput : s'.rx.inputDone = true := congrArg Input.inputDone hrx
      have htr : s'.tr = s.tr := congrArg Sending.tr hs
      refine ⟨t, hsend.of_sending hs, hstack.next ?_ ?_ (.inr (.inr ?_)) ?_
        (fun hc => (congrArg Sending.closeQueued hs).trans hc) (fun hg => htr ▸ hg)
        (fun hsl => .inr (hsl.of_sending hs)) (by rintro (hp | hp) <;> cases hp)
        (fun hf => .inl ((congrArg Sending.failed hs).symm.trans hf)) fun _ => hinput⟩
      · intro pre code post hk
        rw [htr]
        exact hgone pre code post hk
      · intro q hq
        rcases List.mem_append.mp hq with hq | hq
        · left
          split at hq
          · have htame := failBody_tame s' ECANCELED kSocketClosed
              (show isTame [.abandonRx] = true from rfl)
            exact List.all_eq_true.mp (Bool.and_eq_true_iff.mp htame).1 q hq
          · exact absurd hq List.not_mem_nil
        · rcases List.mem_cons.mp hq with rfl | hq
          · exact .inl rfl
          · rcases List.mem_pair.mp hq with rfl | rfl
            · exact .inr ⟨⟨code, rfl⟩, hinput⟩
            · exact .inl rfl
      · refine sealedPosts_append ?_ rfl
        split
        · exact isTame_posts
            (failBody_tame s' ECANCELED kSocketClosed (show isTame [.abandonRx] = true from rfl))
        · rfl
      · rw [show s'.wr.outQ = s.wr.outQ from congrArg Sending.outQ hs]
        exact Nat.le_trans (Nat.add_le_add_left ((List.sublist_cons_self _ k).countP_le) _)
          hstack.closes
  · exact hsame

/-- A piece keeps `TalkInv` when it makes no slip. -/
theorem TalkInv.exec {c : Config} {p : Stmt} {k : List Stmt} (ch : Choice)
    (hk : c.stack = p :: k) (h : TalkInv c.s (p :: k)) (hslip : NoSlip c .run) :
    TalkInv (c.s.exec ch p).1 ((c.s.exec ch p).2 ++ k) := by
  obtain ⟨t, hsend, hstack⟩ := h
  cases p with
  | inPort => exact ⟨t, hsend, hstack.pop rfl⟩
  | pumpLoop => exact TalkInv.pumpLoop ch hsend hstack
  | closeEcho code => exact TalkInv.closeEcho ch hsend hstack
  | sendEcho code => exact TalkInv.sendEcho hsend hstack
  | pushClose code reason =>
      exact TalkInv.pushClose ch hsend hstack (hsend.open_of (hslip.open hk rfl))
  | failConnection code text => exact TalkInv.failWith hsend hstack rfl rfl rfl _ _ _ _ _ _
  | failWithClose frameCode frameText => exact TalkInv.failWithClose hsend hstack
  | endedRest => exact TalkInv.endedRest hsend hstack
  | postClosed => exact TalkInv.postClosed hsend hstack
  | finishIfDone => exact TalkInv.finishIfDone hsend hstack
  | sendPing payload =>
      exact TalkInv.control hsend hstack rfl rfl rfl rfl rfl payload
        (hsend.open_of (hslip.open hk rfl))        (by decide) (by decide)
  | sendHeartbeat =>
      exact @TalkInv.control c.s { c.s with lv.pingCounter := c.s.lv.pingCounter + 1 } t _ k hsend
        hstack rfl rfl rfl rfl rfl kOpPing _ (hsend.open_of (hslip.open hk rfl)) (by decide)
          (by decide)
  | complete done err =>
      refine TalkInv.quiet hsend hstack (complete_quiet c.s done ?_) (hstack.echo_gone rfl) rfl rfl
      rintro rfl rfl
      exact hstack.reporting _ List.mem_cons_self rfl
  | sink event =>
      cases event with
      | onControl opcode payload => exact TalkInv.onControl ch hsend hstack
      | _ =>
          exact TalkInv.quiet hsend hstack (exec_quiet ch c.s rfl) (hstack.echo_gone rfl) rfl rfl
  | _ => exact TalkInv.quiet hsend hstack (exec_quiet ch c.s rfl) (hstack.echo_gone rfl) rfl rfl

end WsCore

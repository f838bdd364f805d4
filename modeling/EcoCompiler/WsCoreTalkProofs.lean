import EcoCompiler.WsCoreQuiet

/-! # What a WebSocket sends: one piece

    Every piece and every entry point keeps `SendInv`, up to the two slips that a run may
    not make: queueing a graceful Close, or sending a ping, after a Close was handed over.

    * `WsCore.SendInv.of_sending` — a change that `SendInv` does not see;
    * `WsCore.SendInv.sendClose` — a Close written at once;
    * `WsCore.SendInv.pushClose` — a graceful Close queued. -/

namespace WsCore

open State
open WsFrame (kOpContinuation kOpText kOpBinary kOpClose kOpPing kOpPong)

/-! ## Streams -/

/-- A stream just set is found. -/
theorem findStream_setStream_self {s : State} {seq : Nat} {st st' : OutStream}
    (h : s.findStream seq = some st) : (s.setStream seq st').findStream seq = some st' := by
  show (s.wr.outStreams.map fun e => if e.1 = seq then (seq, st') else e).lookup seq = some st'
  rw [findStream] at h
  generalize s.wr.outStreams = streams at h ⊢
  induction streams with
  | nil => cases h
  | cons e l ih =>
      rw [List.map_cons]
      by_cases he : e.1 = seq
      · rw [if_pos he, List.lookup_cons_self]
      · have hne : (seq == e.1) = false := beq_eq_false_iff_ne.mpr fun h => he h.symm
        obtain ⟨key, value⟩ := e
        rw [if_neg he, List.lookup_cons, hne]
        rw [List.lookup_cons, hne] at h
        exact ih h

/-- Setting one stream leaves the others. -/
theorem findStream_setStream_ne {s : State} {seq seq' : Nat} {st : OutStream}
    (h : seq' ≠ seq) : (s.setStream seq st).findStream seq' = s.findStream seq' := by
  show (s.wr.outStreams.map fun e => if e.1 = seq then (seq, st) else e).lookup seq'
    = s.wr.outStreams.lookup seq'
  induction s.wr.outStreams with
  | nil => rfl
  | cons e l ih =>
      obtain ⟨key, value⟩ := e
      rw [List.map_cons]
      by_cases he : key = seq
      · have hne : (seq' == seq) = false := beq_eq_false_iff_ne.mpr h
        rw [if_pos he, List.lookup_cons, List.lookup_cons, he, hne]
        exact ih
      · rw [if_neg he, List.lookup_cons, List.lookup_cons, ih]

/-- Erasing one stream leaves the others. -/
theorem findStream_eraseStream_ne {s : State} {seq seq' : Nat} (h : seq' ≠ seq) :
    (s.eraseStream seq).findStream seq' = s.findStream seq' := by
  show (s.wr.outStreams.filter fun e => e.1 != seq).lookup seq' = s.wr.outStreams.lookup seq'
  induction s.wr.outStreams with
  | nil => rfl
  | cons e l ih =>
      obtain ⟨key, value⟩ := e
      rw [List.filter_cons]
      by_cases he : key = seq
      · have hne : (seq' == key) = false := beq_eq_false_iff_ne.mpr (he ▸ h)
        rw [if_neg (by simp [he]), List.lookup_cons, hne]
        exact ih
      · rw [if_pos (by simpa using he), List.lookup_cons, List.lookup_cons, ih]

theorem mem_of_findStream {s : State} {seq : Nat} {st : OutStream}
    (h : s.findStream seq = some st) : (seq, st) ∈ s.wr.outStreams := by
  rw [findStream] at h
  generalize s.wr.outStreams = streams at h ⊢
  induction streams with
  | nil => cases h
  | cons e l ih =>
      obtain ⟨key, value⟩ := e
      rw [List.lookup_cons] at h
      by_cases he : seq = key
      · rw [beq_iff_eq.mpr he] at h
        obtain rfl := Option.some.inj h
        rw [he]
        exact List.mem_cons_self
      · rw [beq_eq_false_iff_ne.mpr he] at h
        exact List.mem_cons_of_mem _ (ih h)

/-! ## Entries of the queue -/

/-- What an entry of the queue needs of its stream. -/
structure OutStream.SameTalk (st st' : OutStream) : Prop where
  started : st'.started = st.started
  opcode : st'.opcode = st.opcode
  dead : st'.dead = st.dead

/-- The stream at an entry is as far and has the same opcode after a change. -/
def OutItem.Keeps (s s' : State) (item : OutItem) : Prop :=
  ∀ seq st, item.seq = some seq → s.findStream seq = some st →
    ∃ st', s'.findStream seq = some st' ∧ st.SameTalk st'

/-- With the same streams an item keeps what it says. -/
theorem OutItem.keeps_of_eq {s s' : State} (h : s'.wr.outStreams = s.wr.outStreams)
    (item : OutItem) : item.Keeps s s' := by
  intro seq st _ hfind
  refine ⟨st, ?_, rfl, rfl, rfl⟩
  rw [findStream, h]
  exact hfind

/-- Setting a stream with the same progress keeps every entry. -/
theorem OutItem.keeps_setStream {s : State} {seq : Nat} {st st' : OutStream}
    (hfind : s.findStream seq = some st) (hsame : st.SameTalk st') (item : OutItem) :
    item.Keeps s (s.setStream seq st') := by
  intro seq₁ st₁ _ hfind₁
  by_cases he : seq₁ = seq
  · subst he
    obtain rfl : st = st₁ := Option.some.inj (hfind.symm.trans hfind₁)
    exact ⟨st', findStream_setStream_self hfind, hsame⟩
  · exact ⟨st₁, (findStream_setStream_ne he).trans hfind₁, rfl, rfl, rfl⟩

/-- A fresh item stays fresh. -/
theorem OutItem.Fresh.mono {s s' : State} {item : OutItem} (h : item.Fresh s)
    (hkeeps : item.Keeps s s') (hqueued : ∃ more, s'.out.queued = s.out.queued ++ more) :
    item.Fresh s' := by
  obtain ⟨more, hmore⟩ := hqueued
  have hget : ∀ {place opcode : Nat}, s.out.queued[place]? = some opcode →
      s'.out.queued[place]? = some opcode := by
    intro place opcode hplace
    rw [hmore, List.getElem?_append_left (List.getElem?_eq_some_iff.mp hplace).1]
    exact hplace
  cases item with
  | message place item => exact ⟨h.1, hget h.2⟩
  | close frame => trivial
  | stream place seq =>
      obtain ⟨st, hfind, hdead, hstarted, hopcode⟩ := h
      obtain ⟨st', hfind', hsame⟩ := hkeeps seq st rfl hfind
      exact ⟨st', hfind', hsame.dead.trans hdead, hsame.started.trans hstarted,
        hsame.opcode ▸ hget hopcode⟩

/-- A begun item stays begun. -/
theorem OutItem.Begun.mono {s s' : State} {item : OutItem} (h : item.Begun s)
    (hkeeps : item.Keeps s s') : item.Begun s' := by
  cases item with
  | message place item => exact h
  | close frame => exact h
  | stream place seq =>
      obtain ⟨st, hfind, hdead, hstarted⟩ := h
      obtain ⟨st', hfind', hsame⟩ := hkeeps seq st rfl hfind
      exact ⟨st', hfind', hsame.dead.trans hdead, hsame.started.trans hstarted⟩

/-! ## Changes that keep the queue -/

/-- What follows the talk goes on following it. -/
theorem Follows.mono {s s' : State} {t : Talk} (h : Follows s t)
    (hqueue : s'.wr.outQ = s.wr.outQ) (hkeeps : ∀ item ∈ s.wr.outQ, item.Keeps s s')
    (hqueued : ∃ more, s'.out.queued = s.out.queued ++ more)
    (hclosed : s.wr.writeClosed = true → s'.wr.writeClosed = true) : Follows s' t := by
  cases h with
  | idle hcurrent hfresh hnext =>
      refine .idle hcurrent (fun item hitem => ?_) (hqueue ▸ hnext)
      rw [hqueue] at hitem
      exact (hfresh item hitem).mono (hkeeps item hitem) hqueued
  | midway place item rest hcurrent hq hplace hbegun hfresh =>
      refine .midway place item rest hcurrent (hqueue.trans hq) hplace
        (hbegun.mono (hkeeps item (hq ▸ List.mem_cons_self))) fun item' hitem' => ?_
      exact (hfresh item' hitem').mono (hkeeps item' (hq ▸ List.mem_cons_of_mem _ hitem')) hqueued
  | dropped hsealed => exact .dropped ⟨hclosed hsealed.1, hqueue ▸ hsealed.2⟩

/-- A sound queue stays sound. -/
theorem QueueOk.mono {s s' : State} {t : Talk} (h : QueueOk s t)
    (hqueue : s'.wr.outQ = s.wr.outQ) (hkeeps : ∀ item ∈ s.wr.outQ, item.Keeps s s')
    (hqueued : s'.out.queued = s.out.queued)
    (hclosed : s.wr.writeClosed = true → s'.wr.writeClosed = true)
    (hport : s.tr.port = true → s'.tr.port = true) : QueueOk s' t where
  follows := h.follows.mono hqueue hkeeps ⟨[], by rw [hqueued, List.append_nil]⟩ hclosed
  next := h.next
  nextLe := hqueued ▸ h.nextLe
  placed := by
    rw [hqueue, hqueued]
    exact h.placed
  sorted := hqueue ▸ h.sorted
  seqs := hqueue ▸ h.seqs
  afterClose := fun hc => hqueue.trans (h.afterClose hc)
  port := fun hc => hport (h.port hc)

/-- What `SendInv` needs of a change that leaves the queue, the frames and the close state
    as they are. -/
structure Kept (s s' : State) : Prop where
  sent : s'.out.sent = s.out.sent
  queued : s'.out.queued = s.out.queued
  outQ : s'.wr.outQ = s.wr.outQ
  keeps : s.tr.gone = false → ∀ item ∈ s.wr.outQ, item.Keeps s s'
  keys : ∀ e ∈ s'.wr.outStreams, e.1 ∈ s'.out.opened
  opened : ∀ seq ∈ s.out.opened, seq ∈ s'.out.opened
  writeClosed : s'.wr.writeClosed = s.wr.writeClosed
  closeQueued : s'.cl.closeQueued = s.cl.closeQueued
  closeSent : s'.cl.closeSent = s.cl.closeSent
  gone : s.tr.gone = true → s'.tr.gone = true
  port : s'.tr.gone = false → s.tr.port = true → s'.tr.port = true
  writes : Completion.closeFrameWritten ∈ s'.out.writes →
    Completion.closeFrameWritten ∈ s.out.writes

/-- A change that leaves the queue, the frames and the close state as they are keeps
    `SendInv`. -/
theorem SendInv.mono {s s' : State} {t : Talk} (h : SendInv s t) (hkept : Kept s s')
    (hwritten : s'.cl.closeWritten = true → s.cl.closeWritten = true ∨ t.closed = true)
    (hposted : s'.cl.closedPosted = true →
      s.cl.closedPosted = true ∨ s.tr.gone = true ∨ Sealed s) : SendInv s' t where
  heard := by
    rw [hkept.sent, hkept.queued]
    exact h.heard
  closedSent := fun hc => hkept.closeSent.trans (h.closedSent hc)
  sentQueued := fun hc => hkept.closeQueued.trans (h.sentQueued (hkept.closeSent ▸ hc))
  queuedClosed := fun hc => hkept.writeClosed.trans (h.queuedClosed (hkept.closeQueued ▸ hc))
  closeQueued := fun item hitem hclose =>
    hkept.closeQueued.trans (h.closeQueued item (hkept.outQ ▸ hitem) hclose)
  closeLast := hkept.outQ ▸ h.closeLast
  queue := by
    intro hgone
    have hgone' : s.tr.gone = false :=
      Bool.eq_false_iff.mpr fun hg => Bool.eq_false_iff.mp hgone (hkept.gone hg)
    exact (h.queue hgone').mono hkept.outQ (hkept.keeps hgone') hkept.queued
      (fun hc => hkept.writeClosed.trans hc) (hkept.port hgone)
  written := fun hw => h.written (hkept.writes hw)
  closeWritten := fun hw => (hwritten hw).elim h.closeWritten id
  posted := by
    intro hp
    have hsealed : Sealed s → Sealed s' := fun hs =>
      ⟨hkept.writeClosed.trans hs.1, hkept.outQ ▸ hs.2⟩
    rcases hposted hp with hp | hg | hs
    · exact (h.posted hp).imp hkept.gone hsealed
    · exact .inl (hkept.gone hg)
    · exact .inr (hsealed hs)
  opcodes := hkept.queued ▸ h.opcodes
  places := by
    intro seq hseq
    exact hkept.opened seq (h.places seq (hkept.outQ ▸ hseq))
  streams := hkept.keys

/-- A change that `SendInv` does not see. -/
theorem Kept.of_sending {s s' : State} {t : Talk} (hinv : SendInv s t)
    (h : s'.sending = s.sending) : Kept s s' where
  sent := congrArg Sending.sent h
  queued := congrArg Sending.queued h
  outQ := congrArg Sending.outQ h
  keeps := fun _ item _ => item.keeps_of_eq (congrArg Sending.outStreams h)
  keys := by
    rw [show s'.wr.outStreams = s.wr.outStreams from congrArg Sending.outStreams h,
      show s'.out.opened = s.out.opened from congrArg Sending.opened h]
    exact hinv.streams
  opened := by
    rw [show s'.out.opened = s.out.opened from congrArg Sending.opened h]
    exact fun _ hseq => hseq
  writeClosed := congrArg Sending.writeClosed h
  closeQueued := congrArg Sending.closeQueued h
  closeSent := congrArg Sending.closeSent h
  gone := fun hg => (congrArg (fun x => x.tr.gone) h).trans hg
  port := fun _ hp => (congrArg (fun x => x.tr.port) h).trans hp
  writes := by
    rw [show s'.out.writes = s.out.writes from congrArg Sending.writes h]
    exact id

/-- The invariant depends on the sending side alone. -/
theorem SendInv.of_sending {s s' : State} {t : Talk} (hinv : SendInv s t)
    (h : s'.sending = s.sending) : SendInv s' t :=
  hinv.mono (Kept.of_sending hinv h)
    (fun hw => .inl ((congrArg Sending.closeWritten h).symm.trans hw))
    (fun hp => .inl ((congrArg Sending.closedPosted h).symm.trans hp))

theorem Sealed.of_sending {s s' : State} (hs : Sealed s) (h : s'.sending = s.sending) :
    Sealed s' := by
  refine ⟨(congrArg Sending.writeClosed h).trans hs.1, ?_⟩
  rw [show s'.wr.outQ = s.wr.outQ from congrArg Sending.outQ h]
  exact hs.2

/-! ## Control frames -/

/-- On a live connection a control frame is handed over. -/
theorem writeControl_live {s : State} {opcode : Nat} {payload : Bytes} {done : Option Completion}
    (h : s.live = true) :
    s.writeControl opcode payload done
      = s.portWrite { fin := true, opcode := opcode, payload := payload } none done := by
  rw [State.writeControl, if_pos h]

/-- On a dead one it is dropped, and its `done` is called with an error. -/
theorem writeControl_dead {s : State} {opcode : Nat} {payload : Bytes} {done : Option Completion}
    (h : ¬ s.live = true) :
    s.writeControl opcode payload done
      = (s, (done.map fun d => Stmt.complete d ECANCELED).toList) := by
  rw [State.writeControl, if_neg h]

/-- A control frame is heard as long as no Close was. -/
theorem hear_control {queued : List Nat} {t : Talk} {f : Sent} (hopen : t.closed = false)
    (hplace : f.place = none) (hfin : f.frame.fin = true) (hopcode : 8 ≤ f.frame.opcode) :
    Talk.hear queued t f = some { t with closed := decide (f.frame.opcode = kOpClose) } := by
  rw [Talk.hear, hopen, hplace]
  simp only [Bool.false_eq_true, if_false, hfin, true_and, if_pos hopcode]

/-- A ping or pong handed over while no Close has been. -/
theorem SendInv.sendControl {s : State} {t : Talk} (h : SendInv s t) (hopen : t.closed = false)
    {frame : Frame} (hfin : frame.fin = true) (hopcode : 8 ≤ frame.opcode)
    (hclose : frame.opcode ≠ kOpClose) : SendInv (s.portWrite frame none none).1 t := by
  have heard : Talk.hearAll s.out.queued (s.out.sent ++ [{ frame := frame, place := none }])
      = some t := by
    rw [hearAll_append, h.heard, Option.bind_some, hear_control hopen rfl hfin hopcode]
    show some { t with closed := decide (frame.opcode = kOpClose) } = some t
    rw [decide_eq_false hclose, ← hopen]
  exact
    { heard := heard
      closedSent := h.closedSent
      sentQueued := h.sentQueued
      queuedClosed := h.queuedClosed
      closeQueued := h.closeQueued
      closeLast := h.closeLast
      queue := fun hgone => (h.queue hgone).mono rfl (fun item _ => item.keeps_of_eq rfl) rfl id id
      written := fun hw => h.written ((List.append_nil s.out.writes) ▸ hw)
      closeWritten := h.closeWritten
      posted := h.posted
      opcodes := h.opcodes
      places := h.places
      streams := h.streams }

theorem Follows.close {s : State} {t : Talk} (h : Follows s t) :
    Follows s { t with closed := true } := by
  cases h with
  | idle hcurrent hfresh hnext => exact .idle hcurrent hfresh hnext
  | midway place item rest hcurrent hq hplace hbegun hfresh =>
      exact .midway place item rest hcurrent hq hplace hbegun hfresh
  | dropped hsealed => exact .dropped hsealed

/-- A Close handed over while none has been and nothing is queued. -/
theorem SendInv.sendClose {s : State} {t : Talk} (h : SendInv s t) (hopen : t.closed = false)
    (hlive : s.live = true) (hqueued : s.cl.closeQueued = true) (hempty : s.wr.outQ = [])
    {frame : Frame} (hfin : frame.fin = true) (hclose : frame.opcode = kOpClose) :
    SendInv ({ s with cl.closeSent := true }.portWrite frame none (some .closeFrameWritten)).1
      { t with closed := true } := by
  obtain ⟨hport, -⟩ := Bool.and_eq_true_iff.mp hlive
  have heard : Talk.hearAll s.out.queued (s.out.sent ++ [{ frame := frame, place := none }])
      = some { t with closed := true } := by
    rw [hearAll_append, h.heard, Option.bind_some,
      hear_control hopen rfl hfin (hclose ▸ Nat.le_refl 8)]
    show some { t with closed := decide (frame.opcode = kOpClose) } = _
    rw [decide_eq_true hclose]
  exact
    { heard := heard
      closedSent := fun _ => rfl
      sentQueued := fun _ => hqueued
      queuedClosed := h.queuedClosed
      closeQueued := h.closeQueued
      closeLast := h.closeLast
      queue := by
        intro hgone
        have hq : QueueOk ({ s with cl.closeSent := true }.portWrite frame none
            (some .closeFrameWritten)).1 t :=
          (h.queue hgone).mono rfl (fun item _ => item.keeps_of_eq rfl) rfl id id
        exact
          { follows := hq.follows.close
            next := hq.next
            nextLe := hq.nextLe
            placed := hq.placed
            sorted := hq.sorted
            seqs := hq.seqs
            afterClose := fun _ => hempty
            port := fun _ => hport }
      written := fun _ => rfl
      closeWritten := fun _ => rfl
      posted := h.posted
      opcodes := h.opcodes
      places := h.places
      streams := h.streams }

/-! ## Emptying the queue -/

/-- The queue emptied for good. -/
def State.sealQueue (s : State) : State :=
  { s with wr.writeClosed := true }.failQueued kSocketClosed

/-- Sealing empties the queue and lets no more data in. -/
theorem sealQueue_sealed (s : State) : Sealed s.sealQueue :=
  ⟨rfl, fun _ hitem => absurd hitem List.not_mem_nil⟩

/-- Sealing the queue keeps the invariant. -/
theorem SendInv.sealQueue {s : State} {t : Talk} (h : SendInv s t) :
    SendInv s.sealQueue t where
  heard := h.heard
  closedSent := h.closedSent
  sentQueued := h.sentQueued
  queuedClosed := fun _ => rfl
  closeQueued := fun _ hitem => absurd hitem List.not_mem_nil
  closeLast := List.Pairwise.nil
  queue := by
    intro hgone
    have hq := h.queue hgone
    exact
      { follows := .dropped (sealQueue_sealed s)
        next := hq.next
        nextLe := hq.nextLe
        placed := fun _ hitem => absurd hitem List.not_mem_nil
        sorted := List.Pairwise.nil
        seqs := List.nodup_nil
        afterClose := fun _ => rfl
        port := hq.port }
  written := h.written
  closeWritten := h.closeWritten
  posted := fun _ => .inr (sealQueue_sealed s)
  opcodes := h.opcodes
  places := fun _ hseq => absurd hseq List.not_mem_nil
  streams := by
    intro e he
    obtain ⟨e', he', rfl⟩ := List.mem_map.mp he
    exact h.streams e' he'

/-- The Close queued in name: the writable is closed already. -/
theorem SendInv.markQueued {s : State} {t : Talk} (h : SendInv s t)
    (hclosed : s.wr.writeClosed = true) : SendInv { s with cl.closeQueued := true } t where
  heard := h.heard
  closedSent := h.closedSent
  sentQueued := fun _ => rfl
  queuedClosed := fun _ => hclosed
  closeQueued := fun _ _ _ => rfl
  closeLast := h.closeLast
  queue := fun hgone => (h.queue hgone).mono rfl (fun item _ => item.keeps_of_eq rfl) rfl id id
  written := h.written
  closeWritten := h.closeWritten
  posted := h.posted
  opcodes := h.opcodes
  places := h.places
  streams := h.streams

/-- The writable closed. -/
theorem SendInv.shutWritable {s : State} {t : Talk} (h : SendInv s t) :
    SendInv { s with wr.writeClosed := true } t where
  heard := h.heard
  closedSent := h.closedSent
  sentQueued := h.sentQueued
  queuedClosed := fun _ => rfl
  closeQueued := h.closeQueued
  closeLast := h.closeLast
  queue := fun hgone =>
    (h.queue hgone).mono rfl (fun item _ => item.keeps_of_eq rfl) rfl (fun _ => rfl) id
  written := h.written
  closeWritten := h.closeWritten
  posted := fun hp => (h.posted hp).imp id fun hs => ⟨rfl, hs.2⟩
  opcodes := h.opcodes
  places := h.places
  streams := h.streams

/-- A failure seals the queue and puts the Close behind it, once. -/
theorem failWithClose_eq (s : State) (frameCode : Nat) (frameText : Bytes) :
    s.failWithClose frameCode frameText
      = if s.sealQueue.cl.closeSent then (s.sealQueue, [])
        else { s.sealQueue with cl.closeQueued := true, cl.closeSent := true }.writeControl
          kOpClose (closePayload frameCode frameText) (some .closeFrameWritten) := rfl

/-- The part of `failWith` that sends the Close. -/
theorem SendInv.failWithClose {s : State} {t : Talk} (h : SendInv s t) (frameCode : Nat)
    (frameText : Bytes) :
    ∃ t', SendInv (s.failWithClose frameCode frameText).1 t'
      ∧ Sealed (s.failWithClose frameCode frameText).1 := by
  rw [failWithClose_eq]
  by_cases hsent : s.cl.closeSent = true
  · rw [if_pos (show s.sealQueue.cl.closeSent = true from hsent)]
    exact ⟨t, h.sealQueue, sealQueue_sealed s⟩
  · rw [if_neg (show ¬ s.sealQueue.cl.closeSent = true from hsent)]
    have hopen : t.closed = false := Bool.eq_false_iff.mpr fun hc => hsent (h.closedSent hc)
    have hmarked : SendInv { s.sealQueue with cl.closeQueued := true } t :=
      h.sealQueue.markQueued rfl
    by_cases hlive : s.live = true
    · rw [writeControl_live]
      · exact ⟨_, hmarked.sendClose hopen hlive rfl rfl rfl rfl, sealQueue_sealed s⟩
      · exact hlive
    · rw [writeControl_dead]
      on_goal 2 => exact hlive
      refine ⟨t, ?_, sealQueue_sealed s⟩
      exact { hmarked with
        closedSent := fun _ => rfl
        sentQueued := fun _ => rfl
        queue := fun hgone => (hmarked.queue hgone).mono rfl
          (fun item _ => item.keeps_of_eq rfl) rfl id id }

/-- The echo of a Close, while nothing is queued and no Close was handed over. -/
theorem SendInv.sendEcho {s : State} {t : Talk} (h : SendInv s t) (code : Nat)
    (hqueued : s.cl.closeQueued = true)
    (hopen : s.tr.gone = false → t.closed = false ∧ s.wr.outQ = []) :
    ∃ t', SendInv (s.sendEcho code).1 t' := by
  rw [State.sendEcho]
  by_cases hlive : s.live = true
  · have hgone : s.tr.gone = false := by
      rw [State.live, Bool.and_eq_true_iff, Bool.not_eq_true'] at hlive
      exact hlive.2
    rw [writeControl_live]
    · exact ⟨_, h.sendClose (hopen hgone).1 hlive hqueued (hopen hgone).2 rfl rfl⟩
    · exact hlive
  · rw [writeControl_dead]
    on_goal 2 => exact hlive
    exact ⟨t, { h with
      closedSent := fun _ => rfl
      sentQueued := fun _ => hqueued
      queue := fun hgone => (h.queue hgone).mono rfl
        (fun item _ => item.keeps_of_eq rfl) rfl id id }⟩

/-- A ping, a pong or nothing, while no Close was handed over. -/
theorem SendInv.writeControl {s : State} {t : Talk} (h : SendInv s t) {opcode : Nat}
    (payload : Bytes) (hopen : s.live = true → t.closed = false) (hopcode : 8 ≤ opcode)
    (hclose : opcode ≠ kOpClose) : SendInv (s.writeControl opcode payload none).1 t := by
  by_cases hlive : s.live = true
  · rw [writeControl_live hlive]
    exact h.sendControl (hopen hlive) rfl hopcode hclose
  · rw [writeControl_dead hlive]
    exact h

/-- A graceful Close queued. -/
theorem SendInv.pushClose {s : State} {t : Talk} (h : SendInv s t) (c : Choice) (code : Nat)
    (reason : Bytes) (hqueued : s.cl.closeQueued = true)
    (hnone : ∀ item ∈ s.wr.outQ, item.isClose = false)
    (hopen : s.live = true → t.closed = false) :
    SendInv (s.pushClose c code reason).1 t := by
  -- the payload is the code and the reason, or empty; nothing below looks at it
  have hpushed : ∀ payload : Bytes,
      SendInv { s with wr.outQ := s.wr.outQ ++ [OutItem.close payload] } t := by
    intro payload
    refine
      { heard := h.heard
        closedSent := h.closedSent
        sentQueued := h.sentQueued
        queuedClosed := h.queuedClosed
        closeQueued := fun _ _ _ => hqueued
        closeLast := ?_
        queue := ?_
        written := h.written
        closeWritten := h.closeWritten
        posted := ?_
        opcodes := h.opcodes
        places := ?_
        streams := h.streams }
    -- no Close stood in the queue, so this one is the last
    · refine List.pairwise_append.mpr ⟨h.closeLast, List.pairwise_singleton _ _, ?_⟩
      exact fun item hitem _ _ => hnone item hitem
    · intro hgone
      have hq := h.queue hgone
      have hsealed : Sealed s →
          Sealed { s with wr.outQ := s.wr.outQ ++ [OutItem.close payload] } := by
        rintro ⟨hclosed, hall⟩
        refine ⟨hclosed, fun item hitem => ?_⟩
        rcases List.mem_append.mp hitem with hitem | hitem
        · exact hall item hitem
        · rw [List.mem_singleton.mp hitem]
          rfl
      have hfresh : ∀ items : List OutItem, (∀ item ∈ items, item.Fresh s) →
          ∀ item ∈ items ++ [OutItem.close payload],
            item.Fresh { s with wr.outQ := s.wr.outQ ++ [OutItem.close payload] } := by
        intro items hitems item hitem
        rcases List.mem_append.mp hitem with hitem | hitem
        · exact (hitems item hitem).mono (item.keeps_of_eq rfl) ⟨[], (List.append_nil _).symm⟩
        · rw [List.mem_singleton.mp hitem]
          trivial
      refine
        { follows := ?_
          next := hq.next
          nextLe := hq.nextLe
          placed := ?_
          sorted := ?_
          seqs := ?_
          afterClose := ?_
          port := hq.port }
      -- a Close has no place among what was queued, so the talk goes on as before
      · cases hq.follows with
        | idle hcurrent hfr hnext =>
            refine .idle hcurrent (hfresh _ hfr) fun item hitem place hplace => ?_
            rcases List.mem_append.mp hitem with hitem | hitem
            · exact hnext item hitem place hplace
            · rw [List.mem_singleton.mp hitem] at hplace
              cases hplace
        | midway place item rest hcurrent hqueue hplace hbegun hfr =>
            refine .midway place item (rest ++ [OutItem.close payload]) hcurrent ?_ hplace
              (hbegun.mono (item.keeps_of_eq rfl)) (hfresh _ hfr)
            show s.wr.outQ ++ [OutItem.close payload] = _
            rw [hqueue]
            rfl
        | dropped hs => exact .dropped (hsealed hs)
      · intro item hitem place hplace
        rcases List.mem_append.mp hitem with hitem | hitem
        · exact hq.placed item hitem place hplace
        · rw [List.mem_singleton.mp hitem] at hplace
          cases hplace
      · show ((s.wr.outQ ++ [OutItem.close payload]).filterMap OutItem.place).Pairwise _
        rw [List.filterMap_append,
          show [OutItem.close payload].filterMap OutItem.place = [] from rfl, List.append_nil]
        exact hq.sorted
      · show ((s.wr.outQ ++ [OutItem.close payload]).filterMap OutItem.seq).Nodup
        rw [List.filterMap_append, show [OutItem.close payload].filterMap OutItem.seq = [] from rfl,
          List.append_nil]
        exact hq.seqs
      · intro hc
        have hlive : s.live = true := by
          rw [State.live, hq.port hc, hgone]
          rfl
        exact absurd hc (Bool.eq_false_iff.mp (hopen hlive))
    · intro hp
      refine (h.posted hp).imp id ?_
      rintro ⟨hclosed, hall⟩
      refine ⟨hclosed, fun item hitem => ?_⟩
      rcases List.mem_append.mp hitem with hitem | hitem
      · exact hall item hitem
      · rw [List.mem_singleton.mp hitem]
        rfl
    · intro seq hseq
      refine h.places seq ?_
      rw [List.filterMap_append, show [OutItem.close payload].filterMap OutItem.seq = [] from rfl,
        List.append_nil] at hseq
      exact hseq
  unfold State.pushClose
  dsimp only
  split
  · exact (hpushed _).of_sending rfl
  · exact hpushed _

end WsCore

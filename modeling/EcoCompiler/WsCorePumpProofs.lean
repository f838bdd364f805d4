import EcoCompiler.WsCoreTalkProofs

/-! # What a WebSocket sends: the write pump

    A turn of the write pump either hands over the next frame of the head of the queue,
    which the listener accepts, or sends nothing.

    * `WsCore.QueueOk.hear_head` — the head's next frame is accepted;
    * `WsCore.SendInv.pumpLoop` — a turn of the pump keeps `SendInv`. -/

namespace WsCore

open State
open WsFrame (kOpContinuation kOpText kOpBinary kOpClose)

/-! ## The next frame of the head -/

/-- The listener accepts the next frame of the head of the queue: a first frame with the
    opcode of the message when nothing of it was sent, a continuation otherwise. -/
theorem QueueOk.hear_head {s : State} {t : Talk} (h : QueueOk s t)
    (hopcodes : ∀ opcode ∈ s.out.queued, opcode = kOpText ∨ opcode = kOpBinary)
    {item : OutItem} {rest : List OutItem} (hqueue : s.wr.outQ = item :: rest) {place : Nat}
    (hplace : item.place = some place) {frame : Frame}
    (hfirst : item.Fresh s → s.out.queued[place]? = some frame.opcode)
    (hnext : item.Begun s → frame.opcode = kOpContinuation) :
    ∃ t', Talk.hear s.out.queued t { frame := frame, place := some place } = some t'
      ∧ t'.closed = false ∧ t'.next = place + 1
      ∧ t'.current = (if frame.fin then none else some place)
      ∧ ∀ item ∈ rest, item.Fresh s := by
  have hopen : t.closed = false := by
    refine Bool.eq_false_iff.mpr fun hc => ?_
    rw [h.afterClose hc] at hqueue
    cases hqueue
  cases h.follows with
  | idle hcurrent hfresh hle =>
      have hmem : item ∈ s.wr.outQ := hqueue ▸ List.mem_cons_self
      have hget := hfirst (hfresh item hmem)
      have hne : frame.opcode ≠ kOpContinuation := by
        rcases hopcodes _ (List.mem_of_getElem? hget) with ho | ho <;> rw [ho] <;> decide
      refine ⟨{ t with current := if frame.fin then none else some place, next := place + 1 },
        ?_, hopen, rfl, rfl,
          fun item' hitem' => hfresh item' (hqueue ▸ List.mem_cons_of_mem _ hitem')⟩
      rw [Talk.hear, hopen]
      simp only [Bool.false_eq_true, if_false, if_neg hne]
      rw [if_pos ⟨hcurrent, hle item hmem place hplace, hget⟩]
  | midway place' item' rest' hcurrent hqueue' hplace' hbegun hfresh =>
      obtain ⟨rfl, rfl⟩ := List.cons.inj (hqueue.symm.trans hqueue')
      obtain rfl : place = place' := Option.some.inj (hplace.symm.trans hplace')
      refine ⟨{ t with current := if frame.fin then none else some place },
        ?_, hopen, h.next place hcurrent, rfl, hfresh⟩
      rw [Talk.hear, hopen]
      simp only [Bool.false_eq_true, if_false, if_pos (hnext hbegun)]
      rw [if_pos hcurrent]
  | dropped hsealed =>
      have hclose := hsealed.2 item (hqueue ▸ List.mem_cons_self)
      cases item with
      | message place item => cases hclose
      | close frame => cases hplace
      | stream place seq => cases hclose

/-- Every later entry has a later place. -/
theorem QueueOk.later {s : State} {t : Talk} (h : QueueOk s t) {item : OutItem}
    {rest : List OutItem} (hqueue : s.wr.outQ = item :: rest) {place : Nat}
    (hplace : item.place = some place) :
    ∀ item' ∈ rest, ∀ place', item'.place = some place' → place < place' := by
  intro item' hitem' place' hplace'
  have hsorted := h.sorted
  rw [hqueue, List.filterMap_cons, hplace] at hsorted
  exact List.rel_of_pairwise_cons hsorted (List.mem_filterMap.mpr ⟨item', hitem', hplace'⟩)

/-- What stays when the head of the queue goes or is replaced by one at the same place. -/
theorem QueueOk.advance {s s' : State} {t t' : Talk} (h : QueueOk s t)
    {item : OutItem} {rest head : List OutItem} (hqueue : s.wr.outQ = item :: rest) {place : Nat}
    (hplace : item.place = some place) (hqueue' : s'.wr.outQ = head ++ rest)
    (hhead : head = [] ∨ ∃ item', head = [item'] ∧ item'.place = some place
      ∧ item'.seq = item.seq)
    (hqueued : s'.out.queued = s.out.queued) (hopen : t'.closed = false)
    (hnext : t'.next = place + 1) (hcurrent : ∀ place', t'.current = some place' → place' = place)
    (hfollows : Follows s' t') : QueueOk s' t' := by
  have hplaced := h.placed item (hqueue ▸ List.mem_cons_self) place hplace
  have hsorted := h.sorted
  have hseqs := h.seqs
  rw [hqueue, List.filterMap_cons, hplace] at hsorted
  rw [hqueue] at hseqs
  refine
    { follows := hfollows
      next := fun place' hp => by rw [hnext, hcurrent place' hp]
      nextLe := by
        rw [hnext, hqueued]
        exact hplaced
      placed := ?_
      sorted := ?_
      seqs := ?_
      afterClose := fun hc => absurd hc (Bool.eq_false_iff.mp hopen)
      port := fun hc => absurd hc (Bool.eq_false_iff.mp hopen) }
  -- the head keeps its place, so all that is said of places stays
  · intro item₁ hitem₁ place₁ hplace₁
    rw [hqueued]
    rw [hqueue', List.mem_append] at hitem₁
    rcases hitem₁ with hitem₁ | hitem₁
    · rcases hhead with rfl | ⟨item', rfl, hplace', -⟩
      · exact absurd hitem₁ List.not_mem_nil
      · rw [List.mem_singleton.mp hitem₁, hplace'] at hplace₁
        exact Option.some.inj hplace₁ ▸ hplaced
    · exact h.placed item₁ (hqueue ▸ List.mem_cons_of_mem _ hitem₁) place₁ hplace₁
  · rw [hqueue']
    rcases hhead with rfl | ⟨item', rfl, hplace', -⟩
    · exact hsorted.of_cons
    · rw [List.singleton_append, List.filterMap_cons, hplace']
      exact hsorted
  · rw [hqueue']
    rcases hhead with rfl | ⟨item', rfl, -, hseq'⟩
    · exact hseqs.sublist ((List.sublist_cons_self item rest).filterMap _)
    · rw [List.singleton_append, List.filterMap_cons, hseq']
      rwa [List.filterMap_cons] at hseqs

/-- What `SendInv` needs of a turn of the pump that sends a data frame of the head. -/
structure DataSent (s s' : State) (item : OutItem) (rest head : List OutItem) (frame : Frame)
    (place : Nat) : Prop where
  queue : s.wr.outQ = item :: rest
  itemPlace : item.place = some place
  queue' : s'.wr.outQ = head ++ rest
  heads : head = [] ∨ ∃ item', head = [item'] ∧ item'.place = some place ∧ item'.seq = item.seq
  sent : s'.out.sent = s.out.sent ++ [{ frame := frame, place := some place }]
  queued : s'.out.queued = s.out.queued
  opened : s'.out.opened = s.out.opened
  keys : ∀ e ∈ s'.wr.outStreams, e.1 ∈ s.out.opened
  closing : s'.cl = s.cl
  writeClosed : s'.wr.writeClosed = s.wr.writeClosed
  tr : s'.tr = s.tr
  writes : Completion.closeFrameWritten ∈ s'.out.writes →
    Completion.closeFrameWritten ∈ s.out.writes
  keeps : ∀ item ∈ rest, item.Keeps s s'
  ends : frame.fin = true → head = []
  begun : frame.fin = false → ∀ item' ∈ head, item'.Begun s'
  stays : frame.fin = false → head ≠ []

theorem place_not_close {item : OutItem} {place : Nat} (h : item.place = some place) :
    item.isClose = false := by
  cases item with
  | message place item => rfl
  | close frame => cases h
  | stream place seq => rfl

/-- A turn of the pump that sends a data frame of the head keeps `SendInv`. -/
theorem SendInv.sendData {s s' : State} {t : Talk} (h : SendInv s t) (hgone : s.tr.gone = false)
    (item : OutItem) (rest head : List OutItem) {frame : Frame} (place : Nat)
    (hd : DataSent s s' item rest head frame place)
    (hfirst : item.Fresh s → s.out.queued[place]? = some frame.opcode)
    (hnext : item.Begun s → frame.opcode = kOpContinuation) : ∃ t', SendInv s' t' := by
  have hq := h.queue hgone
  -- the peer accepts the frame: a first one opens a message, a later one continues it
  obtain ⟨t', hhear, hopen, hnext', hcurrent, hfresh⟩ :=
    hq.hear_head h.opcodes hd.queue hd.itemPlace hfirst hnext
  have hopenT : t.closed = false := by
    refine Bool.eq_false_iff.mpr fun hc => ?_
    have hempty := hq.afterClose hc
    rw [hd.queue] at hempty
    cases hempty
  have hfresh' : ∀ item ∈ rest, item.Fresh s' := fun item hitem =>
    (hfresh item hitem).mono (hd.keeps item hitem) ⟨[], by rw [hd.queued, List.append_nil]⟩
  have hlater := hq.later hd.queue hd.itemPlace
  -- a last frame leaves the peer between messages, any other one midway in the head
  have hfollows : Follows s' t' := by
    cases hfin : frame.fin with
    | true =>
        rw [hfin] at hcurrent
        have hrest : s'.wr.outQ = rest := by rw [hd.queue', hd.ends hfin, List.nil_append]
        refine .idle hcurrent (fun item hitem => hfresh' item (hrest ▸ hitem)) ?_
        intro item₁ hitem₁ place₁ hplace₁
        rw [hnext']
        exact hlater item₁ (hrest ▸ hitem₁) place₁ hplace₁
    | false =>
        rw [hfin] at hcurrent
        rcases hd.heads with hnil | ⟨item', hhead, hplace', -⟩
        · exact absurd hnil (hd.stays hfin)
        · refine .midway place item' rest hcurrent (by rw [hd.queue', hhead]; rfl) hplace'
            (hd.begun hfin item' (hhead ▸ List.mem_singleton_self _)) hfresh'
  have hheadClose : ∀ item' ∈ head, item'.isClose = false := by
    intro item' hitem'
    rcases hd.heads with rfl | ⟨item₁, rfl, hplace₁, -⟩
    · exact absurd hitem' List.not_mem_nil
    · rw [List.mem_singleton.mp hitem']
      exact place_not_close hplace₁
  refine ⟨t', ?_⟩
  refine
    { heard := ?_
      closedSent := fun hc => absurd hc (Bool.eq_false_iff.mp hopen)
      sentQueued := hd.closing ▸ h.sentQueued
      queuedClosed := by
        rw [hd.closing, hd.writeClosed]
        exact h.queuedClosed
      closeQueued := ?_
      closeLast := ?_
      queue := ?_
      written := fun hw => absurd (h.written (hd.writes hw)) (Bool.eq_false_iff.mp hopenT)
      closeWritten := fun hw =>
        absurd (h.closeWritten (hd.closing ▸ hw)) (Bool.eq_false_iff.mp hopenT)
      posted := ?_
      opcodes := hd.queued ▸ h.opcodes
      places := ?_
      streams := by
        rw [hd.opened]
        exact hd.keys }
  · rw [hd.queued, hd.sent, hearAll_append, h.heard, Option.bind_some]
    exact hhear
  · intro item₁ hitem₁ hclose₁
    rw [hd.closing]
    rw [hd.queue', List.mem_append] at hitem₁
    rcases hitem₁ with hitem₁ | hitem₁
    · exact absurd hclose₁ (Bool.eq_false_iff.mp (hheadClose item₁ hitem₁))
    · exact h.closeQueued item₁ (hd.queue ▸ List.mem_cons_of_mem _ hitem₁) hclose₁
  -- the head that stays is no Close, and the rest is as it was
  · have hlast := h.closeLast
    rw [hd.queue] at hlast
    rw [hd.queue']
    refine List.pairwise_append.mpr ⟨?_, hlast.of_cons, fun a ha _ _ => hheadClose a ha⟩
    rcases hd.heads with hnil | ⟨item', hhead, -⟩
    · rw [hnil]
      exact List.Pairwise.nil
    · rw [hhead]
      exact List.pairwise_singleton _ _
  · intro _
    refine hq.advance hd.queue hd.itemPlace hd.queue' hd.heads hd.queued hopen hnext' ?_ hfollows
    intro place' hp
    rw [hcurrent] at hp
    split at hp
    · cases hp
    · exact (Option.some.inj hp).symm
  · intro hp
    rcases h.posted (hd.closing ▸ hp) with hg | hs
    · exact absurd hg (Bool.eq_false_iff.mp hgone)
    · have hclose := hs.2 item (hd.queue ▸ List.mem_cons_self)
      exact absurd hclose (Bool.eq_false_iff.mp (place_not_close hd.itemPlace))
  · intro seq hseq
    rw [hd.opened]
    refine h.places seq ?_
    rw [hd.queue]
    rw [hd.queue', List.filterMap_append, List.mem_append] at hseq
    rcases hseq with hseq | hseq
    · rcases hd.heads with hnil | ⟨item', hhead, -, hseq'⟩
      · rw [hnil] at hseq
        exact absurd hseq List.not_mem_nil
      · rw [hhead] at hseq
        obtain ⟨item₁, hitem₁, hseq₁⟩ := List.mem_filterMap.mp hseq
        rw [List.mem_singleton.mp hitem₁, hseq'] at hseq₁
        exact List.mem_filterMap.mpr ⟨item, List.mem_cons_self, hseq₁⟩
    · obtain ⟨item₁, hitem₁, hseq₁⟩ := List.mem_filterMap.mp hseq
      exact List.mem_filterMap.mpr ⟨item₁, List.mem_cons_of_mem _ hitem₁, hseq₁⟩

/-! ## One turn -/

/-- The head of the queue replaced by one that is as far, without a frame sent. -/
theorem SendInv.touchHead {s s' : State} {t : Talk} (h : SendInv s t) {place : Nat}
    {item item' : DataItem} {rest : List OutItem} (hqueue : s.wr.outQ = .message place item :: rest)
    (hqueue' : s'.wr.outQ = .message place item' :: rest) (hoffset : item'.offset = item.offset)
    (hopcode : item'.opcode = item.opcode) (hs : { s with wr.outQ := s'.wr.outQ }.sending
      = s'.sending) : SendInv s' t := by
  have hstreams : s'.wr.outStreams = s.wr.outStreams := (congrArg Sending.outStreams hs).symm
  have hqueued : s'.out.queued = s.out.queued := (congrArg Sending.queued hs).symm
  have hcl : s'.wr.writeClosed = s.wr.writeClosed := (congrArg Sending.writeClosed hs).symm
  have hgone : s'.tr = s.tr := (congrArg Sending.tr hs).symm
  have hmono : ∀ item : OutItem, item.Fresh s → item.Fresh s' := fun item hf =>
    hf.mono (item.keeps_of_eq hstreams) ⟨[], by rw [hqueued, List.append_nil]⟩
  have hmem : ∀ (P : OutItem → Prop), (∀ i ∈ s.wr.outQ, P i) →
      (P (.message place item) → P (.message place item')) → ∀ i ∈ s'.wr.outQ, P i := by
    intro P hall himp i hi
    rw [hqueue', List.mem_cons] at hi
    rcases hi with rfl | hi
    · exact himp (hall _ (hqueue ▸ List.mem_cons_self))
    · exact hall i (hqueue ▸ List.mem_cons_of_mem _ hi)
  -- a sealed queue holds nothing but Closes, and the head is a message
  have hnotSealed : ¬ Sealed s := fun hsealed =>
    by cases hsealed.2 (.message place item) (hqueue ▸ List.mem_cons_self)
  refine
    { heard := by
        rw [hqueued, show s'.out.sent = s.out.sent from (congrArg Sending.sent hs).symm]
        exact h.heard
      closedSent := fun hc => (congrArg Sending.closeSent hs).symm.trans (h.closedSent hc)
      sentQueued := fun hc => (congrArg Sending.closeQueued hs).symm.trans
        (h.sentQueued ((congrArg Sending.closeSent hs).trans hc))
      queuedClosed := fun hc => hcl.trans
        (h.queuedClosed ((congrArg Sending.closeQueued hs).trans hc))
      closeQueued := fun i hi hclose => (congrArg Sending.closeQueued hs).symm.trans
        (hmem (fun i => i.isClose = true → s.cl.closeQueued = true) h.closeQueued
          (fun _ hc => (by cases hc)) i hi hclose)
      closeLast := ?_
      queue := ?_
      written := by
        rw [show s'.out.writes = s.out.writes from (congrArg Sending.writes hs).symm]
        exact h.written
      closeWritten := fun hw => h.closeWritten ((congrArg Sending.closeWritten hs).trans hw)
      posted := fun hp => by
        rcases h.posted ((congrArg Sending.closedPosted hs).trans hp) with hg | hsealed
        · exact .inl (hgone ▸ hg)
        · exact absurd hsealed hnotSealed
      opcodes := hqueued ▸ h.opcodes
      places := ?_
      streams := by
        rw [hstreams, show s'.out.opened = s.out.opened from (congrArg Sending.opened hs).symm]
        exact h.streams }
  · have hlast := h.closeLast
    rw [hqueue] at hlast
    rw [hqueue']
    exact List.pairwise_cons.mpr ⟨fun _ _ => rfl, hlast.of_cons⟩
  · intro hg
    have hq := h.queue (hgone ▸ hg)
    refine
      { follows := ?_
        next := hq.next
        nextLe := hqueued ▸ hq.nextLe
        placed := by
          rw [hqueued]
          exact hmem (fun i => ∀ p, i.place = some p → p < s.out.queued.length) hq.placed id
        sorted := by
          have hsorted := hq.sorted
          rw [hqueue] at hsorted
          rw [hqueue']
          exact hsorted
        seqs := by
          have hseqs := hq.seqs
          rw [hqueue] at hseqs
          rw [hqueue']
          exact hseqs
        afterClose := fun hc => by
          have hempty := hq.afterClose hc
          rw [hqueue] at hempty
          cases hempty
        port := fun hc => hgone ▸ hq.port hc }
    -- the head keeps its offset and its opcode, so the peer is as far as it was
    cases hq.follows with
    | idle hcurrent hfresh hnext =>
        refine .idle hcurrent
          (hmem (fun i => i.Fresh s') (fun i hi => hmono i (hfresh i hi)) ?_)
          (hmem (fun i => ∀ p, i.place = some p → t.next ≤ p) hnext id)
        intro hf
        exact ⟨hoffset.trans hf.1, hopcode ▸ hf.2⟩
    | midway place₁ item₁ rest₁ hcurrent hqueue₁ hplace hbegun hfresh =>
        obtain ⟨rfl, rfl⟩ := List.cons.inj (hqueue.symm.trans hqueue₁)
        have hbegun' : 0 < item'.offset := by
          rw [hoffset]
          exact hbegun
        exact .midway place₁ _ rest hcurrent hqueue' hplace hbegun'
          fun i hi => hmono i (hfresh i hi)
    | dropped hsealed => exact absurd hsealed hnotSealed
  · intro seq hseq
    rw [show s'.out.opened = s.out.opened from (congrArg Sending.opened hs).symm]
    refine h.places seq ?_
    rw [hqueue]
    rw [hqueue'] at hseq
    exact hseq

theorem prepare_spec {c : Choice} {compress : Bool} {item item' : DataItem}
    (h : prepare c compress item = some item') :
    item'.offset = item.offset ∧ item'.opcode = item.opcode := by
  rw [prepare] at h
  split at h
  · obtain rfl := Option.some.inj h
    exact ⟨rfl, rfl⟩
  · obtain ⟨z, -, rfl⟩ := Option.map_eq_some_iff.mp h
    exact ⟨rfl, rfl⟩

/-- A message at the head of the queue. -/
theorem SendInv.pumpMessage {s : State} {t : Talk} (h : SendInv s t) (hgone : s.tr.gone = false)
    (c : Choice) {place : Nat} {item : DataItem} {rest : List OutItem}
    (hqueue : s.wr.outQ = .message place item :: rest) :
    ∃ t', SendInv (s.pumpMessage c place item rest).1 t' := by
  unfold State.pumpMessage
  dsimp only
  cases hprep : prepare c (s.cfg.deflate && decide (s.cfg.threshold ≤ (item.frame.length : Int)))
      item with
  | none => exact ⟨t, h.touchHead hqueue rfl rfl rfl rfl⟩
  | some item' =>
      obtain ⟨hoffset, hopcode⟩ := prepare_spec hprep
      -- the first frame has the opcode that was queued, a later one continues
      have hfirst : OutItem.Fresh s (.message place item) →
          s.out.queued[place]?
            = some (if (item'.offset == 0) = true then item'.opcode else kOpContinuation) := by
        rintro ⟨hzero, hget⟩
        rw [hoffset, hzero, hopcode]
        exact hget
      have hnext : OutItem.Begun s (.message place item) →
          (if (item'.offset == 0) = true then item'.opcode else kOpContinuation)
            = kOpContinuation := by
        intro hbegun
        have hne : item'.offset ≠ 0 := by
          rw [hoffset]
          exact Nat.pos_iff_ne_zero.mp hbegun
        rw [if_neg (by simpa using hne)]
      dsimp only
      split
      -- the frame takes what is left of the message, so the message leaves the queue
      · rename_i hfin
        refine h.sendData hgone (.message place item) rest [] place
          ⟨hqueue, rfl, rfl, .inl rfl, rfl, rfl, rfl, h.streams, rfl, rfl, rfl, ?_,
            fun i _ => i.keeps_of_eq rfl, fun _ => rfl, ?_, ?_⟩ hfirst hnext
        · intro hw
          rcases List.mem_append.mp hw with hw | hw
          · exact hw
          · cases List.mem_singleton.mp hw
        · exact fun hf => absurd hfin (Bool.eq_false_iff.mp hf)
        · exact fun hf => absurd hfin (Bool.eq_false_iff.mp hf)
      -- a fragment: the message stays at the head, further on
      · rename_i hfin
        refine h.sendData hgone (.message place item) rest
          [.message place { item' with
            offset := item'.offset + min kFragment (item'.frame.length - item'.offset) }] place
          ⟨hqueue, rfl, rfl, .inr ⟨_, rfl, rfl, rfl⟩, rfl, rfl, rfl, h.streams, rfl, rfl, rfl, ?_,
            fun i _ => i.keeps_of_eq rfl, fun hf => absurd hf hfin, ?_,
              fun _ => List.cons_ne_nil _ _⟩
          hfirst hnext
        · intro hw
          exact (List.append_nil s.out.writes) ▸ hw
        · intro _ i hi
          rw [List.mem_singleton.mp hi]
          show 0 < item'.offset + min kFragment (item'.frame.length - item'.offset)
          have hlt : ¬ item'.frame.length
              ≤ item'.offset + min kFragment (item'.frame.length - item'.offset) := by
            simpa using hfin
          have hpos : 0 < kFragment := by decide
          omega

/-! ## Streams -/

theorem setStream_keys {s : State} {seq : Nat} {st : OutStream} {opened : List Nat}
    (h : ∀ e ∈ s.wr.outStreams, e.1 ∈ opened) :
    ∀ e ∈ (s.setStream seq st).wr.outStreams, e.1 ∈ opened := by
  intro e he
  obtain ⟨e', he', rfl⟩ := List.mem_map.mp he
  split
  · rename_i hseq
    exact hseq ▸ h e' he'
  · exact h e' he'

theorem eraseStream_keys {s : State} {seq : Nat} {opened : List Nat}
    (h : ∀ e ∈ s.wr.outStreams, e.1 ∈ opened) :
    ∀ e ∈ (s.eraseStream seq).wr.outStreams, e.1 ∈ opened :=
  fun e he => h e (List.mem_of_mem_filter he)

/-- A stream set with the same progress keeps `SendInv`. -/
theorem SendInv.setStream {s : State} {t : Talk} (h : SendInv s t) {seq : Nat}
    {st st' : OutStream} (hfind : s.findStream seq = some st) (hsame : st.SameTalk st') :
    SendInv (s.setStream seq st') t :=
  h.mono
    { sent := rfl, queued := rfl, outQ := rfl
      keeps := fun _ item _ => OutItem.keeps_setStream hfind hsame item
      keys := setStream_keys h.streams
      opened := fun _ hseq => hseq
      writeClosed := rfl, closeQueued := rfl, closeSent := rfl
      gone := id, port := fun _ hp => hp, writes := id }
    .inl .inl

/-- No later entry is the place of the stream at the head of the queue. -/
theorem QueueOk.seq_ne {s : State} {t : Talk} (h : QueueOk s t) {place seq : Nat}
    {rest : List OutItem} (hqueue : s.wr.outQ = .stream place seq :: rest) :
    ∀ item ∈ rest, ∀ seq', item.seq = some seq' → seq' ≠ seq := by
  intro item hitem seq' hseq' heq
  have hseqs := h.seqs
  rw [hqueue, List.filterMap_cons] at hseqs
  exact (List.nodup_cons.mp hseqs).1 (List.mem_filterMap.mpr ⟨item, hitem, heq ▸ hseq'⟩)

/-- The stream at the head of the queue is there, and it is not dead. -/
theorem QueueOk.findStream {s : State} {t : Talk} (h : QueueOk s t) {place seq : Nat}
    {rest : List OutItem} (hqueue : s.wr.outQ = .stream place seq :: rest) :
    ∃ st, s.findStream seq = some st ∧ st.dead = false := by
  cases h.follows with
  | idle hcurrent hfresh hnext =>
      obtain ⟨st, hfind, hdead, -⟩ := hfresh (.stream place seq) (hqueue ▸ List.mem_cons_self)
      exact ⟨st, hfind, hdead⟩
  | midway place' item rest' hcurrent hqueue' hplace hbegun hfresh =>
      obtain ⟨rfl, rfl⟩ := List.cons.inj (hqueue.symm.trans hqueue')
      obtain ⟨st, hfind, hdead, -⟩ := hbegun
      exact ⟨st, hfind, hdead⟩
  | dropped hsealed => cases hsealed.2 (.stream place seq) (hqueue ▸ List.mem_cons_self)

/-- The opcode of the next frame of a stream at the head of the queue. -/
theorem stream_opcode {s : State} (place : Nat) {seq : Nat} {st : OutStream}
    (hfind : s.findStream seq = some st) :
    (OutItem.Fresh s (.stream place seq) → s.out.queued[place]?
        = some (if (!st.started) = true then st.opcode else kOpContinuation))
      ∧ (OutItem.Begun s (.stream place seq) →
        (if (!st.started) = true then st.opcode else kOpContinuation) = kOpContinuation) := by
  constructor
  · rintro ⟨st', hfind', -, hstarted, hget⟩
    obtain rfl : st = st' := Option.some.inj (hfind.symm.trans hfind')
    rw [hstarted]
    exact hget
  · rintro ⟨st', hfind', -, hstarted⟩
    obtain rfl : st = st' := Option.some.inj (hfind.symm.trans hfind')
    rw [hstarted]
    rfl

/-- A chunk of a stream at the head of the queue. -/
theorem SendInv.pumpChunk {s : State} {t : Talk} (h : SendInv s t) (hgone : s.tr.gone = false)
    (c : Choice) {place seq : Nat} {st : OutStream} {chunk : DataItem} {chunks : List DataItem}
    {rest : List OutItem} (hqueue : s.wr.outQ = .stream place seq :: rest)
    (hfind : s.findStream seq = some st) (hdead : st.dead = false) :
    ∃ t', SendInv (s.pumpChunk c place seq st chunk chunks).1 t' := by
  obtain ⟨hfirst, hnext⟩ := stream_opcode place hfind
  have hsent : ∀ (st' : OutStream) (frame : Frame) (done : Option Completion),
      st'.started = true → st'.dead = false → frame.fin = false →
      frame.opcode = (if (!st.started) = true then st.opcode else kOpContinuation) →
      Completion.closeFrameWritten ∉ done.toList →
      ∃ t', SendInv ((s.setStream seq st').portWrite frame (some place) done).1 t' := by
    intro st' frame done hstarted hdead' hfin hopcode hdone
    refine h.sendData hgone (.stream place seq) rest [.stream place seq] place
      ⟨hqueue, rfl, hqueue, .inr ⟨_, rfl, rfl, rfl⟩, rfl, rfl, rfl, setStream_keys h.streams,
        rfl, rfl, rfl, ?_, ?_, fun hf => absurd hf (Bool.eq_false_iff.mp hfin), ?_,
        fun _ => List.cons_ne_nil _ _⟩ (hopcode ▸ hfirst) (hopcode ▸ hnext)
    · intro hw
      exact (List.mem_append.mp hw).elim id fun hw => absurd hw hdone
    · intro item hitem seq₁ st₁ hseq₁ hfind₁
      have hne := (h.queue hgone).seq_ne hqueue item hitem seq₁ hseq₁
      exact ⟨st₁, (findStream_setStream_ne hne).trans hfind₁, rfl, rfl, rfl⟩
    · intro _ item hitem
      rw [List.mem_singleton.mp hitem]
      exact ⟨st', findStream_setStream_self hfind, hdead', hstarted⟩
  unfold State.pumpChunk
  dsimp only
  cases hprep : prepare c st.compress chunk with
  | none =>
      have hset : SendInv (s.setStream seq { st with
          chunks := { chunk with prepared := true } :: chunks }) t :=
        h.setStream hfind ⟨rfl, rfl, rfl⟩
      exact ⟨t, hset.of_sending rfl⟩
  | some chunk' =>
      dsimp only
      split
      · exact hsent _ _ none rfl hdead rfl rfl List.not_mem_nil
      · refine hsent _ _ _ rfl hdead rfl rfl fun hw => ?_
        cases List.mem_singleton.mp hw

/-- The FIN frame of a stream at the head of the queue. -/
theorem SendInv.pumpFin {s : State} {t : Talk} (h : SendInv s t) (hgone : s.tr.gone = false)
    {place seq : Nat} {st : OutStream} {rest : List OutItem}
    (hqueue : s.wr.outQ = .stream place seq :: rest) (hfind : s.findStream seq = some st) :
    ∃ t', SendInv (s.pumpFin place seq st rest).1 t' := by
  obtain ⟨hfirst, hnext⟩ := stream_opcode place hfind
  refine h.sendData hgone (.stream place seq) rest [] place
    ⟨hqueue, rfl, rfl, .inl rfl, rfl, rfl, rfl,
      eraseStream_keys (s := { s with wr.outQ := rest }) h.streams, rfl, rfl, rfl, ?_, ?_,
      fun _ => rfl, (fun hf => by cases hf), (fun hf => by cases hf)⟩ hfirst hnext
  · intro hw
    rcases List.mem_append.mp hw with hw | hw
    · exact hw
    · cases List.mem_singleton.mp hw
  · intro item hitem seq₁ st₁ hseq₁ hfind₁
    have hne := (h.queue hgone).seq_ne hqueue item hitem seq₁ hseq₁
    exact ⟨st₁, (findStream_eraseStream_ne (s := { s with wr.outQ := rest }) hne).trans hfind₁,
      rfl, rfl, rfl⟩

/-! ## The pump -/

theorem live_gone {s : State} (h : s.live = true) : s.tr.gone = false := by
  rw [State.live, Bool.and_eq_true_iff, Bool.not_eq_true'] at h
  exact h.2

/-- The Close at the head of the queue taken, with nothing behind it. -/
theorem SendInv.dropClose {s : State} {t : Talk} (h : SendInv s t) {payload : Bytes}
    {rest : List OutItem} (hqueue : s.wr.outQ = .close payload :: rest) (hrest : rest = []) :
    SendInv { s with wr.outQ := rest } t := by
  subst hrest
  have hclosed : s.wr.writeClosed = true :=
    h.queuedClosed (h.closeQueued _ (hqueue ▸ List.mem_cons_self) rfl)
  have hsealed : Sealed { s with wr.outQ := ([] : List OutItem) } :=
    ⟨hclosed, fun _ hitem => absurd hitem List.not_mem_nil⟩
  exact
    { heard := h.heard
      closedSent := h.closedSent
      sentQueued := h.sentQueued
      queuedClosed := h.queuedClosed
      closeQueued := fun _ hitem => absurd hitem List.not_mem_nil
      closeLast := List.Pairwise.nil
      queue := fun hgone =>
        have hq := h.queue hgone
        { follows := .dropped hsealed
          next := hq.next
          nextLe := hq.nextLe
          placed := fun _ hitem => absurd hitem List.not_mem_nil
          sorted := List.Pairwise.nil
          seqs := List.nodup_nil
          afterClose := fun _ => rfl
          port := hq.port }
      written := h.written
      closeWritten := h.closeWritten
      posted := fun _ => .inr hsealed
      opcodes := h.opcodes
      places := fun _ hseq => absurd hseq List.not_mem_nil
      streams := h.streams }

/-- A turn of the write pump keeps `SendInv`. -/
theorem SendInv.pumpLoop {s : State} {t : Talk} (h : SendInv s t) (c : Choice) :
    ∃ t', SendInv (s.pumpLoop c).1 t' := by
  have hstop : SendInv s.pumpStop.1 t := h.of_sending rfl
  unfold State.pumpLoop
  cases hqueue : s.wr.outQ with
  | nil => exact ⟨t, hstop⟩
  | cons item rest =>
      dsimp only
      split
      · exact ⟨t, hstop⟩
      rename_i hroom
      have hlive : s.live = true := by
        cases hl : s.live with
        | true => rfl
        | false =>
            rw [hl] at hroom
            exact absurd rfl hroom
      have hgone := live_gone hlive
      have hq := h.queue hgone
      cases item with
      | message place item => exact h.pumpMessage hgone c hqueue
      | close frame =>
          -- The Close stands last, so nothing is queued behind it.
          have hrest : rest = [] := by
            cases rest with
            | nil => rfl
            | cons next rest =>
                have hlast := h.closeLast
                rw [hqueue] at hlast
                cases List.rel_of_pairwise_cons hlast List.mem_cons_self
          have hopen : t.closed = false := by
            refine Bool.eq_false_iff.mpr fun hc => ?_
            rw [hq.afterClose hc] at hqueue
            cases hqueue
          exact ⟨_, (h.dropClose hqueue hrest).sendClose hopen hlive
            (h.closeQueued _ (hqueue ▸ List.mem_cons_self) rfl) hrest rfl rfl⟩
      | stream place seq =>
          obtain ⟨st, hfind, hdead⟩ := hq.findStream hqueue
          dsimp only
          rw [hfind]
          dsimp only
          cases st.chunks with
          | cons chunk chunks => exact h.pumpChunk hgone c hqueue hfind hdead
          | nil =>
              dsimp only
              split
              · exact h.pumpFin hgone hqueue hfind
              · exact ⟨t, hstop⟩

end WsCore

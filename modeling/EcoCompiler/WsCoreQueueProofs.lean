import EcoCompiler.WsCorePumpProofs

/-! # What a WebSocket sends: the entry points that queue

    * `WsCore.QueueOk.enqueue`, `WsCore.SendInv.enqueue` — a data entry appended to the queue;
    * `WsCore.SendInv.dropStream` — a stream abandoned before its first frame, or after the
      queue was emptied for good. -/

namespace WsCore

open State
open WsFrame (kOpContinuation kOpText kOpBinary kOpClose)

/-! ## Appending -/

section

variable {s s' : State} {t : Talk} {opcode : Nat} {item : OutItem}

theorem mem_appended (hqueue : s'.wr.outQ = s.wr.outQ ++ [item]) {i : OutItem}
    (hi : i ∈ s'.wr.outQ) : i ∈ s.wr.outQ ∨ i = item := by
  rw [hqueue, List.mem_append, List.mem_singleton] at hi
  exact hi

/-- The head of the queue is as far when an entry is appended. -/
theorem Follows.enqueue (h : Follows s t) (hclosed : s.wr.writeClosed = false)
    (hnext : t.next ≤ s.out.queued.length) (hqueue : s'.wr.outQ = s.wr.outQ ++ [item])
    (hplace : item.place = some s.out.queued.length)
    (hqueued : s'.out.queued = s.out.queued ++ [opcode]) (hfresh : item.Fresh s')
    (hkeeps : ∀ item ∈ s.wr.outQ, item.Keeps s s') : Follows s' t := by
  have hold : ∀ i : OutItem, i ∈ s.wr.outQ → i.Fresh s → i.Fresh s' := fun i hi hf =>
    hf.mono (hkeeps i hi) ⟨[opcode], hqueued⟩
  cases h with
  | idle hcurrent hfr hafter =>
      refine .idle hcurrent (fun i hi => ?_) fun i hi place hp => ?_
      · rcases mem_appended hqueue hi with hi | rfl
        · exact hold i hi (hfr i hi)
        · exact hfresh
      · rcases mem_appended hqueue hi with hi | rfl
        · exact hafter i hi place hp
        · obtain rfl := Option.some.inj (hplace.symm.trans hp)
          exact hnext
  | midway place head rest hcurrent hhead hp hbegun hfr =>
      refine .midway place head (rest ++ [item]) hcurrent (by rw [hqueue, hhead]; rfl) hp
        (hbegun.mono (hkeeps head (hhead ▸ List.mem_cons_self))) fun i hi => ?_
      rcases List.mem_append.mp hi with hi | hi
      · exact hold i (hhead ▸ List.mem_cons_of_mem _ hi) (hfr i hi)
      · exact List.mem_singleton.mp hi ▸ hfresh
  | dropped hsealed => exact absurd hsealed.1 (Bool.eq_false_iff.mp hclosed)

/-- The queue is as it should be when an entry with the next place is appended. -/
theorem QueueOk.enqueue (hq : QueueOk s t) (hclosed : s.wr.writeClosed = false)
    (hopen : t.closed = false) (hqueue : s'.wr.outQ = s.wr.outQ ++ [item])
    (hplace : item.place = some s.out.queued.length)
    (hqueued : s'.out.queued = s.out.queued ++ [opcode]) (hfresh : item.Fresh s')
    (hseq : ∀ seq, item.seq = some seq → seq ∉ s.wr.outQ.filterMap OutItem.seq)
    (hkeeps : ∀ item ∈ s.wr.outQ, item.Keeps s s') : QueueOk s' t := by
  refine
    { follows := hq.follows.enqueue hclosed hq.nextLe hqueue hplace hqueued hfresh hkeeps
      next := hq.next
      nextLe := ?_
      placed := ?_
      sorted := ?_
      seqs := ?_
      afterClose := fun hc => absurd hc (Bool.eq_false_iff.mp hopen)
      port := fun hc => absurd hc (Bool.eq_false_iff.mp hopen) }
  · rw [hqueued, List.length_append]
    exact Nat.le_add_right_of_le hq.nextLe
  · intro i hi place hp
    rw [hqueued, List.length_append]
    rcases mem_appended hqueue hi with hi | rfl
    · exact Nat.lt_add_right 1 (hq.placed i hi place hp)
    · obtain rfl := Option.some.inj (hplace.symm.trans hp)
      exact Nat.lt_succ_self _
  -- the new place is above all those in the queue
  · rw [hqueue, List.filterMap_append]
    refine List.pairwise_append.mpr ⟨hq.sorted, ?_, fun a ha b hb => ?_⟩
    · rw [List.filterMap_cons, hplace]
      exact List.pairwise_singleton _ _
    · obtain ⟨i, hi, hp⟩ := List.mem_filterMap.mp ha
      obtain ⟨j, hj, hpj⟩ := List.mem_filterMap.mp hb
      rw [List.mem_singleton.mp hj] at hpj
      obtain rfl := Option.some.inj (hplace.symm.trans hpj)
      exact hq.placed i hi a hp
  · rw [hqueue, List.filterMap_append]
    refine List.nodup_append.mpr ⟨hq.seqs, ?_, fun a ha b hb => ?_⟩
    · cases hs : item.seq with
      | none =>
          rw [List.filterMap_cons, hs]
          exact List.nodup_nil
      | some seq =>
          rw [List.filterMap_cons, hs]
          exact List.nodup_singleton _
    · obtain ⟨j, hj, hsj⟩ := List.mem_filterMap.mp hb
      rw [List.mem_singleton.mp hj] at hsj
      rintro rfl
      exact hseq a hsj ha

end

/-- A data entry appended to the queue while the writable is open. -/
theorem SendInv.enqueue {s s' : State} {t : Talk} (h : SendInv s t) (opcode : Nat)
    (item : OutItem) (hclosed : s.wr.writeClosed = false)
    (hopcode : opcode = kOpText ∨ opcode = kOpBinary)
    (hqueue : s'.wr.outQ = s.wr.outQ ++ [item]) (hplace : item.place = some s.out.queued.length)
    (hqueued : s'.out.queued = s.out.queued ++ [opcode]) (hfresh : item.Fresh s')
    (hseq : ∀ seq, item.seq = some seq → seq ∉ s.out.opened ∧ seq ∈ s'.out.opened)
    (hopened : ∀ seq ∈ s.out.opened, seq ∈ s'.out.opened)
    (hkeys : ∀ e ∈ s'.wr.outStreams, e.1 ∈ s'.out.opened)
    (hkeeps : ∀ item ∈ s.wr.outQ, item.Keeps s s')
    (hsent : s'.out.sent = s.out.sent) (hwrites : s'.out.writes = s.out.writes)
    (htr : s'.tr = s.tr) (hcl : s'.cl = s.cl) (hwr : s'.wr.writeClosed = s.wr.writeClosed) :
    SendInv s' t := by
  -- the writable is open, so no Close has been queued or sent
  have hunqueued : s.cl.closeQueued = false :=
    Bool.eq_false_iff.mpr fun hc => Bool.eq_false_iff.mp hclosed (h.queuedClosed hc)
  have hopen : t.closed = false := Bool.eq_false_iff.mpr fun hc =>
    Bool.eq_false_iff.mp hunqueued (h.sentQueued (h.closedSent hc))
  refine
    { heard := by
        rw [hqueued, hsent]
        exact hearAll_queued h.heard [opcode]
      closedSent := hcl ▸ h.closedSent
      sentQueued := hcl ▸ h.sentQueued
      queuedClosed := by
        rw [hcl, hwr]
        exact h.queuedClosed
      closeQueued := ?_
      closeLast := ?_
      queue := ?_
      written := hwrites ▸ h.written
      closeWritten := hcl ▸ h.closeWritten
      posted := ?_
      opcodes := ?_
      places := ?_
      streams := hkeys }
  · intro i hi hclose
    rw [hcl]
    rcases mem_appended hqueue hi with hi | rfl
    · exact h.closeQueued i hi hclose
    · exact absurd hclose (Bool.eq_false_iff.mp (place_not_close hplace))
  · rw [hqueue]
    refine List.pairwise_append.mpr ⟨h.closeLast, List.pairwise_singleton _ _, ?_⟩
    intro i hi _ _
    exact Bool.eq_false_iff.mpr fun hclose =>
      Bool.eq_false_iff.mp hunqueued (h.closeQueued i hi hclose)
  · intro hgone
    exact (h.queue (htr ▸ hgone)).enqueue hclosed hopen hqueue hplace hqueued hfresh
      (fun seq hs hmem => (hseq seq hs).1 (h.places seq hmem)) hkeeps
  · intro hp
    rcases h.posted (hcl ▸ hp) with hg | hsealed
    · exact .inl (htr ▸ hg)
    · exact absurd hsealed.1 (Bool.eq_false_iff.mp hclosed)
  · intro o ho
    rw [hqueued, List.mem_append, List.mem_singleton] at ho
    rcases ho with ho | rfl
    · exact h.opcodes o ho
    · exact hopcode
  · intro seq hs
    obtain ⟨i, hi, hsi⟩ := List.mem_filterMap.mp hs
    rcases mem_appended hqueue hi with hi | rfl
    · exact hopened seq (h.places seq (List.mem_filterMap.mpr ⟨i, hi, hsi⟩))
    · exact (hseq seq hsi).2

/-- A message written. -/
theorem SendInv.reqWrite {s : State} {t : Talk} (h : SendInv s t) (chan token : Nat) (tag : Int)
    (bytes : Bytes) : SendInv (s.reqWrite chan token tag bytes).1 t := by
  rw [State.reqWrite]
  by_cases hclosed : (s.wr.writeClosed || s.tr.gone) = true
  · rw [if_pos hclosed]
    exact h.of_sending rfl
  · rw [if_neg hclosed]
    rw [Bool.not_eq_true, Bool.or_eq_false_iff] at hclosed
    refine h.enqueue (if tag = 1 then kOpText else kOpBinary) _ hclosed.1 ?_ rfl rfl rfl
      ⟨rfl, ?_⟩ (fun seq hs => (by cases hs)) (fun _ hs => hs) h.streams
      (fun i _ => i.keeps_of_eq rfl) rfl rfl rfl rfl rfl
    · split
      · exact .inl rfl
      · exact .inr rfl
    · show (s.out.queued ++ [_])[s.out.queued.length]? = _
      rw [List.getElem?_append_right (Nat.le_refl _), Nat.sub_self]
      rfl

theorem findStream_none {s : State} {t : Talk} (h : SendInv s t) {seq : Nat}
    (hseq : seq ∉ s.out.opened) : s.findStream seq = none := by
  cases hfind : s.findStream seq with
  | none => rfl
  | some st => exact absurd (h.streams _ (mem_of_findStream hfind)) hseq

theorem lookup_append_of_none {streams : List (Nat × OutStream)} {seq : Nat} {st : OutStream}
    (h : streams.lookup seq = none) : (streams ++ [(seq, st)]).lookup seq = some st := by
  rw [List.lookup_append, h, List.lookup_cons_self]
  rfl

/-- A stream opened under a new number. -/
theorem SendInv.openOutgoing {s : State} {t : Talk} (h : SendInv s t) {seq opcode : Nat}
    (hseq : seq ∉ s.out.opened) (hopcode : opcode = kOpText ∨ opcode = kOpBinary) :
    SendInv (s.openOutgoing seq opcode).1 t := by
  have hnone : s.wr.outStreams.lookup seq = none := findStream_none h hseq
  have hkeeps : ∀ (st : OutStream) (s' : State),
      s'.wr.outStreams = s.wr.outStreams ++ [(seq, st)] →
      ∀ item : OutItem, item.Keeps s s' := by
    intro st s' hstreams item seq₁ st₁ _ hfind₁
    refine ⟨st₁, ?_, rfl, rfl, rfl⟩
    rw [State.findStream] at hfind₁
    rw [State.findStream, hstreams, List.lookup_append, hfind₁]
    rfl
  have hkeys : ∀ (st : OutStream) (e : Nat × OutStream),
      e ∈ s.wr.outStreams ++ [(seq, st)] → e.1 ∈ s.out.opened ++ [seq] := by
    intro st e he
    rcases List.mem_append.mp he with he | he
    · exact List.mem_append_left _ (h.streams e he)
    · rw [List.mem_singleton.mp he]
      exact List.mem_append_right _ List.mem_cons_self
  have hemplace : ∀ st, (State.emplaceStream { s with out.opened := s.out.opened ++ [seq] } seq st)
      = { s with out.opened := s.out.opened ++ [seq]
                 wr.outStreams := s.wr.outStreams ++ [(seq, st)] } := by
    intro st
    rw [State.emplaceStream, State.findStream, if_neg]
    · exact Bool.eq_false_iff.mp (by rw [hnone]; rfl)
  unfold State.openOutgoing
  dsimp only
  rw [hemplace, hemplace]
  split
  · refine h.mono ⟨rfl, rfl, rfl, fun _ item _ => hkeeps _ _ rfl item, hkeys _, ?_, rfl, rfl, rfl,
      id, fun _ hp => hp, id⟩ .inl .inl
    exact fun _ hs => List.mem_append_left _ hs
  · rename_i hclosed
    rw [Bool.not_eq_true, Bool.or_eq_false_iff] at hclosed
    refine h.enqueue opcode (.stream s.out.queued.length seq) hclosed.1 hopcode rfl rfl rfl ?_ ?_
      (fun _ hs => List.mem_append_left _ hs) (hkeys _) (fun item _ => hkeeps _ _ rfl item)
      rfl rfl rfl rfl rfl
    · refine ⟨s.newStream opcode false, lookup_append_of_none hnone, rfl, rfl, ?_⟩
      show (s.out.queued ++ [opcode])[s.out.queued.length]? = _
      rw [List.getElem?_append_right (Nat.le_refl _), Nat.sub_self]
      rfl
    · intro seq' hs
      obtain rfl := Option.some.inj hs
      exact ⟨hseq, List.mem_append_right _ List.mem_cons_self⟩

/-! ## Streams -/

theorem openStream_spec {s : State} {seq : Nat} {st : OutStream} (h : s.openStream seq = some st) :
    s.findStream seq = some st := by
  rw [State.openStream] at h
  exact (Option.filter_eq_some_iff.mp h).1

theorem SendInv.outWrite {s : State} {t : Talk} (h : SendInv s t) (seq chan token : Nat)
    (bytes : Bytes) : SendInv (s.outWrite seq chan token bytes).1 t := by
  rw [State.outWrite]
  cases hopen : s.openStream seq with
  | none => exact h.of_sending rfl
  | some st =>
      dsimp only
      split
      · exact h.of_sending rfl
      · exact h.setStream (openStream_spec hopen) ⟨rfl, rfl, rfl⟩

/-- No entry of the queue is the place of a dead stream. -/
theorem QueueOk.seq_ne_dead {s : State} {t : Talk} (h : QueueOk s t) {seq : Nat} {st : OutStream}
    (hfind : s.findStream seq = some st) (hdead : st.dead = true) :
    ∀ item ∈ s.wr.outQ, item.seq ≠ some seq := by
  have hfresh : ∀ item : OutItem, item.Fresh s → item.seq ≠ some seq := by
    intro item hf hs
    cases item with
    | message place item => cases hs
    | close payload => cases hs
    | stream place seq' =>
        obtain rfl := Option.some.inj hs
        obtain ⟨st', hfind', hdead', -⟩ := hf
        obtain rfl : st = st' := Option.some.inj (hfind.symm.trans hfind')
        exact Bool.eq_false_iff.mp hdead' hdead
  intro item hitem
  cases h.follows with
  | idle hcurrent hfr hnext => exact hfresh item (hfr item hitem)
  | midway place head rest hcurrent hqueue hplace hbegun hfr =>
      rw [hqueue, List.mem_cons] at hitem
      rcases hitem with rfl | hitem
      · intro hs
        cases item with
        | message place item => cases hs
        | close payload => cases hs
        | stream place seq' =>
            obtain rfl := Option.some.inj hs
            obtain ⟨st', hfind', hdead', -⟩ := hbegun
            obtain rfl : st = st' := Option.some.inj (hfind.symm.trans hfind')
            exact Bool.eq_false_iff.mp hdead' hdead
      · exact hfresh item (hfr item hitem)
  | dropped hsealed =>
      have hclose := hsealed.2 item hitem
      cases item with
      | message place item => cases hclose
      | close payload => exact fun hs => by cases hs
      | stream place seq' => cases hclose

theorem keeps_eraseStream {s : State} {seq : Nat} {item : OutItem} (h : item.seq ≠ some seq) :
    item.Keeps s (s.eraseStream seq) := by
  intro seq₁ st₁ hseq₁ hfind₁
  have hne : seq₁ ≠ seq := fun heq => h (heq ▸ hseq₁)
  exact ⟨st₁, (findStream_eraseStream_ne hne).trans hfind₁, rfl, rfl, rfl⟩

theorem SendInv.outClose {s : State} {t : Talk} (h : SendInv s t) (seq chan token : Nat) :
    SendInv (s.outClose seq chan token).1 t := by
  rw [State.outClose]
  cases hopen : s.openStream seq with
  | none =>
      dsimp only
      split
      · rename_i hdead
        obtain ⟨st, hfind, hst⟩ : ∃ st, s.findStream seq = some st ∧ st.dead = true := by
          cases hfind : s.findStream seq with
          | none =>
              rw [hfind] at hdead
              cases hdead
          | some st =>
              rw [hfind] at hdead
              exact ⟨st, rfl, hdead⟩
        have hkept : Kept s (s.eraseStream seq) :=
          { sent := rfl, queued := rfl, outQ := rfl
            keeps := fun hgone item hitem =>
              keeps_eraseStream ((h.queue hgone).seq_ne_dead hfind hst item hitem)
            keys := eraseStream_keys h.streams
            opened := fun _ hs => hs
            writeClosed := rfl, closeQueued := rfl, closeSent := rfl
            gone := id, port := fun _ hp => hp, writes := id }
        exact (h.mono hkept .inl .inl).of_sending rfl
      · exact h.of_sending rfl
  | some st => exact h.setStream (openStream_spec hopen) ⟨rfl, rfl, rfl⟩

/-! ## Abandoning a stream -/

theorem eraseP_seq_ne {seq : Nat} : ∀ {q : List OutItem}, (q.filterMap OutItem.seq).Nodup →
    ∀ item ∈ q.eraseP (OutItem.isPlaceOf seq), item.seq ≠ some seq
  | [], _, item, hitem => absurd hitem List.not_mem_nil
  | head :: q, hnodup, item, hitem => by
      by_cases hplace : OutItem.isPlaceOf seq head = true
      · rw [List.eraseP_cons_of_pos hplace] at hitem
        cases head with
        | message place item => cases hplace
        | close payload => cases hplace
        | stream place seq' =>
            obtain rfl := beq_iff_eq.mp hplace
            rw [List.filterMap_cons] at hnodup
            exact fun hs => (List.nodup_cons.mp hnodup).1 (List.mem_filterMap.mpr ⟨item, hitem, hs⟩)
      · rw [List.eraseP_cons_of_neg hplace, List.mem_cons] at hitem
        rcases hitem with rfl | hitem
        · intro hs
          cases item with
          | message place item => cases hs
          | close payload => cases hs
          | stream place seq' =>
              obtain rfl := Option.some.inj hs
              exact hplace (beq_self_eq_true seq')
        · refine eraseP_seq_ne (hnodup.sublist ?_) item hitem
          exact (List.sublist_cons_self head q).filterMap _

/-- A stream abandoned, before its first frame or after the queue was emptied for good. -/
theorem SendInv.dropStream {s : State} {t : Talk} (h : SendInv s t) {seq : Nat} {st : OutStream}
    (hfind : s.findStream seq = some st)
    (hfree : s.tr.gone = true ∨ Sealed s ∨ st.started = false) :
    SendInv (State.eraseStream { s with
      wr.outQ := s.wr.outQ.eraseP (OutItem.isPlaceOf seq) } seq) t := by
  have hsub : (s.wr.outQ.eraseP (OutItem.isPlaceOf seq)).Sublist s.wr.outQ := List.eraseP_sublist
  have hmem : ∀ {i : OutItem}, i ∈ s.wr.outQ.eraseP (OutItem.isPlaceOf seq) → i ∈ s.wr.outQ :=
    fun hi => hsub.subset hi
  have hsealed : Sealed s → Sealed (State.eraseStream { s with
      wr.outQ := s.wr.outQ.eraseP (OutItem.isPlaceOf seq) } seq) := fun hs =>
    ⟨hs.1, fun i hi => hs.2 i (hmem hi)⟩
  refine
    { heard := h.heard
      closedSent := h.closedSent
      sentQueued := h.sentQueued
      queuedClosed := h.queuedClosed
      closeQueued := fun i hi => h.closeQueued i (hmem hi)
      closeLast := h.closeLast.sublist hsub
      queue := ?_
      written := h.written
      closeWritten := h.closeWritten
      posted := fun hp => (h.posted hp).imp id hsealed
      opcodes := h.opcodes
      places := fun seq' hs => h.places seq' ((hsub.filterMap _).subset hs)
      streams := eraseStream_keys (s := { s with
        wr.outQ := s.wr.outQ.eraseP (OutItem.isPlaceOf seq) }) h.streams }
  intro hgone
  have hq := h.queue hgone
  have hkeeps : ∀ item ∈ s.wr.outQ.eraseP (OutItem.isPlaceOf seq), item.Fresh s →
      item.Fresh (State.eraseStream { s with
        wr.outQ := s.wr.outQ.eraseP (OutItem.isPlaceOf seq) } seq) := by
    intro item hitem hf
    exact hf.mono (keeps_eraseStream (s := { s with
      wr.outQ := s.wr.outQ.eraseP (OutItem.isPlaceOf seq) }) (eraseP_seq_ne hq.seqs item hitem))
      ⟨[], (List.append_nil _).symm⟩
  refine
    { follows := ?_
      next := hq.next
      nextLe := hq.nextLe
      placed := fun i hi => hq.placed i (hmem hi)
      sorted := hq.sorted.sublist (hsub.filterMap _)
      seqs := hq.seqs.sublist (hsub.filterMap _)
      afterClose := fun hc => by
        show s.wr.outQ.eraseP _ = []
        rw [hq.afterClose hc]
        rfl
      port := hq.port }
  rcases hfree with hg | hs | hstarted
  · exact absurd hg (Bool.eq_false_iff.mp hgone)
  · exact .dropped (hsealed hs)
  cases hq.follows with
  | idle hcurrent hfr hnext =>
      exact .idle hcurrent (fun i hi => hkeeps i hi (hfr i (hmem hi)))
        fun i hi => hnext i (hmem hi)
  | midway place head rest hcurrent hqueue hplace hbegun hfr =>
      -- The message begun is not the stream abandoned, whose frames are all to come.
      have hother : head.seq ≠ some seq := by
        intro hs
        cases head with
        | message place item => cases hs
        | close payload => cases hs
        | stream place seq' =>
            obtain rfl := Option.some.inj hs
            obtain ⟨st', hfind', -, hstarted'⟩ := hbegun
            obtain rfl : st = st' := Option.some.inj (hfind.symm.trans hfind')
            exact Bool.eq_false_iff.mp hstarted hstarted'
      have hnot : ¬ OutItem.isPlaceOf seq head = true := by
        intro hp
        cases head with
        | message place item => cases hp
        | close payload => cases hp
        | stream place seq' => exact hother (congrArg some (beq_iff_eq.mp hp))
      have herase : s.wr.outQ.eraseP (OutItem.isPlaceOf seq)
          = head :: rest.eraseP (OutItem.isPlaceOf seq) := by
        rw [hqueue, List.eraseP_cons_of_neg hnot]
      refine .midway place head _ hcurrent herase hplace
        (hbegun.mono (keeps_eraseStream (s := { s with
          wr.outQ := s.wr.outQ.eraseP (OutItem.isPlaceOf seq) }) hother)) fun i hi => ?_
      exact hkeeps i (herase ▸ List.mem_cons_of_mem _ hi) (hfr i (List.mem_of_mem_eraseP hi))
  | dropped hs => exact .dropped (hsealed hs)

theorem SendInv.outAbort {s : State} {t : Talk} (h : SendInv s t) (seq : Nat)
    (hfailed : s.cl.failed = true → s.tr.gone = true ∨ Sealed s) :
    SendInv (s.outAbort seq).1 t := by
  rw [State.outAbort]
  cases hfind : s.findStream seq with
  | none => exact h
  | some st =>
      dsimp only
      split
      · exact h
      · rename_i hcond
        refine SendInv.of_sending (h.dropStream hfind ?_) rfl
        cases hg : s.tr.gone with
        | true => exact .inl rfl
        | false =>
            rw [hg] at hfailed
            cases hf : s.cl.failed with
            | true => exact .inr (.inl ((hfailed hf).resolve_left Bool.false_ne_true))
            | false =>
                cases hp : s.cl.closedPosted with
                | true =>
                    refine .inr (.inl ((h.posted hp).resolve_left ?_))
                    rw [hg]
                    exact Bool.false_ne_true
                | false =>
                    refine .inr (.inr (Bool.eq_false_iff.mpr fun hst => hcond ?_))
                    rw [hst, hf, hp, hg]
                    rfl

/-! ## The transport -/

theorem SendInv.attach {s : State} {t : Talk} (h : SendInv s t) (c : Choice) :
    SendInv (s.attach c).1 t :=
  h.mono ⟨rfl, rfl, rfl, fun _ item _ => item.keeps_of_eq rfl, h.streams, fun _ hs => hs,
    rfl, rfl, rfl, id, fun _ _ => rfl, id⟩ .inl .inl

/-- Once the transport is gone, nothing of the queue matters. -/
theorem SendInv.setGone {s s' : State} {t : Talk} (h : SendInv s t) (hgone : s'.tr.gone = true)
    (hs : { s with tr := s'.tr }.sending = s'.sending) : SendInv s' t :=
  SendInv.of_sending (s := { s with tr := s'.tr })
    (h.mono ⟨rfl, rfl, rfl, fun _ item _ => item.keeps_of_eq rfl, h.streams, fun _ hs => hs,
      rfl, rfl, rfl, fun _ => hgone,
      fun hg => absurd hgone (Bool.eq_false_iff.mp hg), id⟩ .inl .inl) hs.symm

end WsCore

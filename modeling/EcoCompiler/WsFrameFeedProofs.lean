import EcoCompiler.WsFrameByteProofs

/-! # `feed` is the decoder one byte at a time

    Every turn of the loop of `feed` takes some input and does what `byteRun` does
    on it, a complete header being started on the spot (`settle`).

    * `feed_byteRun`: one call of `feed`, whatever its sink answers;
    * `feed_progress`: a call given input takes some of it or finds the decoder
      failed;
    * `feedRun_byteRun`: any sequence of calls over a byte sequence, each given
      any part of what is left. -/

namespace WsFrame

/-! ## Callbacks -/

variable (cfg : Config) (sink : Sink)

/-- Notifying leaves the decoder as it is. -/
@[simp] theorem notify_d (s : FeedState) (evs : List Event) :
    (notify sink s evs).d = s.d := by
  induction evs generalizing s with
  | nil => rfl
  | cons e es ih => rw [notify, ih]

/-- Notifying leaves the data as it is. -/
@[simp] theorem notify_data (s : FeedState) (evs : List Event) :
    (notify sink s evs).data = s.data := by
  induction evs generalizing s with
  | nil => rfl
  | cons e es ih => rw [notify, ih]

/-- Notifying appends to the log. -/
@[simp] theorem notify_log (s : FeedState) (evs : List Event) :
    (notify sink s evs).log = s.log ++ evs := by
  induction evs generalizing s with
  | nil => exact (List.append_nil _).symm
  | cons e es ih =>
      rw [notify, ih, List.append_assoc]
      rfl

/-! ## The state between turns -/

/-- Inside a payload the header buffer is empty and payload is to come. -/
def Ready (d : WsDecoder) : Prop :=
  d.failCode = 0 → d.inPayload = true → d.hdr = [] ∧ 0 < d.remaining

/-- The state after a turn says what `byteRun` says on the input it took. -/
def Took (s s' : FeedState) : Prop :=
  ∃ used, s.data = used ++ s'.data
    ∧ Same (settle cfg s'.d).1 (byteRun cfg (settle cfg s.d).1 used).1
    ∧ atoms s'.log ++ atoms (settle cfg s'.d).2
        = atoms s.log ++ atoms (settle cfg s.d).2
            ++ atoms (byteRun cfg (settle cfg s.d).1 used).2

theorem Took.refl (s : FeedState) : Took cfg s s :=
  ⟨[], rfl, Same.refl _, (List.append_nil _).symm⟩

variable {cfg}

/-- Steps that take data one after the other take both parts. -/
theorem Took.trans {s s' s'' : FeedState} (h : Took cfg s s') (h' : Took cfg s' s'') :
    Took cfg s s'' := by
  obtain ⟨used, hd, hs, ha⟩ := h
  obtain ⟨used', hd', hs', ha'⟩ := h'
  obtain ⟨hb, hc⟩ := byteRun_same cfg hs used'
  refine ⟨used ++ used', ?_, ?_, ?_⟩
  · rw [hd, hd', List.append_assoc]
  · rw [byteRun_append]
    exact hs'.trans hb
  · rw [ha', ha, byteRun_append, hc, atoms_append]
    simp only [List.append_assoc]

theorem not_pending_of_hdr_nil {d : WsDecoder} (h : d.hdr = []) : ¬ Pending d := by
  rintro ⟨-, -, hp⟩
  rw [h] at hp
  exact absurd hp (by decide)

theorem not_pending_of_inPayload {d : WsDecoder} (h : d.inPayload = true) : ¬ Pending d :=
  fun hp => Bool.false_ne_true (hp.2.1.symm.trans h)

/-- Where no header is complete nothing starts. -/
theorem settle_of_not_pending {d : WsDecoder} (h : ¬ Pending d) : settle cfg d = (d, []) :=
  if_neg h

/-! ## The end of a frame -/

@[simp] theorem completeFrame_hdr (d : WsDecoder) :
    (completeFrame cfg d).1.hdr = d.hdr := by
  simp only [completeFrame, WsDecoder.fail]
  split_ifs <;> rfl

/-- A complete frame leaves the payload. -/
@[simp] theorem completeFrame_inPayload (d : WsDecoder) :
    (completeFrame cfg d).1.inPayload = false := by
  simp only [completeFrame, WsDecoder.fail]
  split_ifs <;> rfl

theorem ready_of_not_inPayload {d : WsDecoder} (h : d.inPayload = false) : Ready d :=
  fun _ hin => absurd (h.symm.trans hin) Bool.false_ne_true

/-! ## One turn -/

variable (cfg)

/-- What a turn leaves when it is over: no header waits to be started. -/
structure Rest (d : WsDecoder) : Prop where
  settled : ¬ Pending d
  ready : Ready d

/-- A failed decoder is at rest. -/
theorem Rest.of_failed {d : WsDecoder} (h : d.failCode ≠ 0) : Rest d :=
  ⟨fun hp => h hp.1, fun h0 => absurd h0 h⟩

/-- A fresh decoder. -/
theorem Rest.start : Rest {} :=
  ⟨not_pending_of_hdr_nil rfl, fun _ h => absurd h Bool.false_ne_true⟩

/-- After a frame with no header begun the decoder is at rest. -/
theorem Rest.of_completeFrame {d : WsDecoder} (h : d.hdr = []) :
    Rest (completeFrame cfg d).1 :=
  ⟨not_pending_of_hdr_nil ((completeFrame_hdr d).trans h),
    ready_of_not_inPayload (completeFrame_inPayload d)⟩

/-- The last chunk of a frame, when its callbacks have been made. -/
private theorem completeTurn_eq (s : FeedState) :
    (completeTurn cfg sink s).1 = true
      ∧ (completeTurn cfg sink s).2.d = (completeFrame cfg s.d).1
      ∧ (completeTurn cfg sink s).2.data = s.data
      ∧ (completeTurn cfg sink s).2.log = s.log ++ (completeFrame cfg s.d).2 :=
  ⟨rfl, notify_d sink _ _, notify_data sink _ _, notify_log sink _ _⟩

/-- The outcome of a turn from `s` that takes payload. -/
structure PayloadTurn (s : FeedState) (r : Bool × FeedState) : Prop where
  took : Took cfg s r.2
  rest : Rest r.2.d
  shorter : s.data ≠ [] → r.2.data.length < s.data.length
  goesOn : r.1 = true → s.data ≠ []
  stops : r.1 = false → r.2.d.failCode ≠ 0 ∨ r.2.data = []

/-- A turn inside a payload that is still to come. -/
theorem payloadTurn_spec (s : FeedState) (h0 : s.d.failCode = 0)
    (hin : s.d.inPayload = true) (hhdr : s.d.hdr = []) (hrem : 0 < s.d.remaining) :
    PayloadTurn cfg s (payloadTurn cfg sink s) := by
  by_cases hdata : s.data = []
  · have heq : payloadTurn cfg sink s = (false, s) := by
      rw [payloadTurn, if_pos hrem, if_pos hdata]
    rw [heq]
    exact ⟨Took.refl cfg s, ⟨not_pending_of_inPayload hin, fun _ _ => ⟨hhdr, hrem⟩⟩,
      fun h => absurd hdata h, (by rintro ⟨⟩), fun _ => Or.inr hdata⟩
  have hpos : 0 < s.data.length := List.length_pos_of_ne_nil hdata
  obtain ⟨take, htake⟩ : ∃ take, take = min s.d.remaining s.data.length := ⟨_, rfl⟩
  obtain ⟨chunk, hchunk⟩ : ∃ chunk, chunk = s.data.take take := ⟨_, rfl⟩
  have hlen : chunk.length = take := by
    rw [hchunk, List.length_take]
    omega
  have hne : chunk ≠ [] := by
    intro h
    rw [h, List.length_nil] at hlen
    omega
  have hsplit : s.data = chunk ++ s.data.drop take := by
    rw [hchunk, List.take_append_drop]
  have hdrop : (s.data.drop take).length < s.data.length := by
    rw [List.length_drop]
    omega
  have hsettle : settle cfg s.d = (s.d, []) := settle_of_inPayload cfg hin
  obtain ⟨hsame, hatoms⟩ := payloadStep_byteRun cfg h0 hin hne (by omega)
  -- the turn is `payloadStep` on the chunk, its callbacks made
  have hturn : (payloadTurn cfg sink s).2.d = (payloadStep cfg s.d chunk).1
      ∧ (payloadTurn cfg sink s).2.data = s.data.drop take
      ∧ (payloadTurn cfg sink s).2.log = s.log ++ (payloadStep cfg s.d chunk).2
      ∧ Rest (payloadTurn cfg sink s).2.d
      ∧ ((payloadTurn cfg sink s).1 = false →
          (payloadTurn cfg sink s).2.d.failCode ≠ 0 ∨ s.data.drop take = []) := by
    have heq : payloadTurn cfg sink s
        = (if (takeChunk cfg s.d chunk).1.failCode ≠ 0 then
            (false, { s with d := (takeChunk cfg s.d chunk).1, data := s.data.drop take })
          else
            let s' := notify sink
              { s with d := (takeChunk cfg s.d chunk).1, data := s.data.drop take }
              (takeChunk cfg s.d chunk).2
            if 0 < s'.d.remaining then (false, s') else completeTurn cfg sink s') := by
      rw [payloadTurn, if_pos hrem, if_neg hdata, ← htake, hchunk]
    rw [heq]
    by_cases hf : ChunkFails cfg s.d chunk
    · obtain ⟨hc, he⟩ := takeChunk_fails cfg h0 hf
      have hfail : (takeChunk cfg s.d chunk).1.failCode ≠ 0 := by
        rw [hc]
        decide
      have hstep : payloadStep cfg s.d chunk = takeChunk cfg s.d chunk :=
        if_pos (Or.inl hfail)
      rw [if_pos hfail, hstep, he, List.append_nil]
      exact ⟨rfl, rfl, rfl, Rest.of_failed hfail, fun _ => Or.inl hfail⟩
    · have hok : takeChunk cfg s.d chunk = (afterChunk cfg s.d chunk, chunkEvents cfg s.d chunk) :=
        takeChunk_ok cfg hf
      have hno : ¬ (afterChunk cfg s.d chunk, chunkEvents cfg s.d chunk).1.failCode ≠ 0 :=
        not_not.mpr h0
      rw [hok, if_neg hno]
      simp only [notify_d, afterChunk_remaining]
      by_cases hmore : 0 < s.d.remaining - chunk.length
      · rw [if_pos hmore, payloadStep_more hf (by omega)]
        refine ⟨notify_d sink _ _, notify_data sink _ _, notify_log sink _ _, ?_, ?_⟩
        · rw [notify_d]
          exact ⟨not_pending_of_inPayload hin, fun _ _ => ⟨hhdr, hmore⟩⟩
        · intro _
          right
          rw [List.drop_eq_nil_iff]
          omega
      · rw [if_neg hmore, payloadStep_last h0 hf (by omega)]
        obtain ⟨hr, hd, hdt, hl⟩ := completeTurn_eq cfg sink
          (notify sink { s with d := afterChunk cfg s.d chunk, data := s.data.drop take }
            (chunkEvents cfg s.d chunk))
        rw [hr, hd, hdt, hl]
        simp only [notify_d, notify_data, notify_log, List.append_assoc]
        exact ⟨trivial, trivial, trivial, Rest.of_completeFrame cfg hhdr,
          fun h => absurd h (by decide)⟩
  obtain ⟨hd, hdt, hl, hrest, hstop⟩ := hturn
  refine ⟨⟨chunk, ?_, ?_, ?_⟩, hrest, fun _ => by rw [hdt]; exact hdrop, fun _ => hdata, ?_⟩
  · rw [hdt]
    exact hsplit
  · rw [settle_of_not_pending hrest.settled, hsettle, hd]
    exact hsame
  · rw [settle_of_not_pending hrest.settled, hsettle, hl, atoms_append, hatoms]
    simp only [atoms_nil, List.append_nil]
  · rw [hdt]
    exact hstop

/-- What is left of the loop: two for each byte, one more for a complete header. -/
def measure (s : FeedState) : Nat := 2 * s.data.length + if Pending s.d then 1 else 0

/-- The measure counts every byte twice. -/
theorem measure_of_not_pending {s : FeedState} (h : ¬ Pending s.d) :
    measure s = 2 * s.data.length := by
  rw [measure, if_neg h, Nat.add_zero]

/-- A frame that is to start counts once more. -/
theorem measure_of_pending {s : FeedState} (h : Pending s.d) :
    measure s = 2 * s.data.length + 1 := by
  rw [measure, if_pos h]

theorem measure_le (s : FeedState) : measure s ≤ 2 * s.data.length + 1 := by
  rw [measure]
  split <;> omega

/-- The outcome of a turn from `s`. -/
structure Turn (s : FeedState) (r : Bool × FeedState) : Prop where
  took : Took cfg s r.2
  ready : Ready r.2.d
  shorter : ¬ Pending s.d → s.data ≠ [] → r.2.data.length < s.data.length
  goesOn : r.1 = true → measure r.2 < measure s
  stops : r.1 = false → Rest r.2.d ∧ (r.2.d.failCode ≠ 0 ∨ r.2.data = [])
  stopped : r.2.stopped = true → s.stopped = true ∨ Rest r.2.d

/-- A turn inside a payload. -/
private theorem turn_inPayload (s : FeedState) (h0 : s.d.failCode = 0) (hr : Ready s.d)
    (hin : s.d.inPayload = true) : Turn cfg s (feedTurn cfg sink s) := by
  obtain ⟨hhdr, hrem⟩ := hr h0 hin
  have heq : feedTurn cfg sink s = payloadTurn cfg sink s := if_pos hin
  obtain ⟨htook, hrest, hshort, hgo, hstop⟩ :=
    payloadTurn_spec cfg sink s h0 hin hhdr hrem
  rw [heq]
  refine ⟨htook, hrest.ready, fun _ => hshort, ?_, fun h => ⟨hrest, hstop h⟩,
    fun _ => Or.inr hrest⟩
  intro h
  have := hshort (hgo h)
  rw [measure_of_not_pending hrest.settled,
    measure_of_not_pending (not_pending_of_inPayload hin)]
  omega

/-- A turn that takes bytes of a header. -/
private theorem turn_header (s : FeedState) (h0 : s.d.failCode = 0)
    (hin : s.d.inPayload = false) (hinc : s.d.hdr.length < headerNeed s.d.hdr) :
    Turn cfg s (feedTurn cfg sink s) := by
  have hno : ¬ Pending s.d := fun hp => absurd hp.2.2 (Nat.not_le.mpr hinc)
  have hin' : ¬ s.d.inPayload = true := by
    rw [hin]
    exact Bool.false_ne_true
  by_cases hdata : s.data = []
  · have heq : feedTurn cfg sink s = (false, s) := by
      rw [feedTurn, if_neg hin', if_pos hinc, if_pos hdata]
    rw [heq]
    exact ⟨Took.refl cfg s, ready_of_not_inPayload hin, fun _ h => absurd hdata h,
      (by rintro ⟨⟩), fun _ => ⟨⟨hno, ready_of_not_inPayload hin⟩, Or.inr hdata⟩, Or.inl⟩
  have hpos : 0 < s.data.length := List.length_pos_of_ne_nil hdata
  obtain ⟨take, htake⟩ :
      ∃ take, take = min (headerNeed s.d.hdr - s.d.hdr.length) s.data.length := ⟨_, rfl⟩
  have heq : feedTurn cfg sink s
      = (true, { s with d := { s.d with hdr := s.d.hdr ++ s.data.take take },
                        data := s.data.drop take }) := by
    rw [feedTurn, if_neg hin', if_pos hinc, if_neg hdata, ← htake]
  have hdrop : (s.data.drop take).length < s.data.length := by
    rw [List.length_drop]
    omega
  -- what is needed grows with the bytes that are there, never past what a turn takes
  have hlen : (s.d.hdr ++ s.data.take take).length
      ≤ headerNeed (s.d.hdr ++ s.data.take take) := by
    refine Nat.le_trans ?_ (headerNeed_mono s.d.hdr (s.data.take take))
    rw [List.length_append, List.length_take]
    omega
  have hrun := byteRun_header cfg h0 hin hinc (s.data.take take) hlen
  rw [heq]
  refine ⟨⟨s.data.take take, (List.take_append_drop take s.data).symm, ?_, ?_⟩,
    ready_of_not_inPayload hin, fun _ _ => hdrop, ?_, (by rintro ⟨⟩), Or.inl⟩
  · rw [settle_of_not_pending hno, hrun]
    exact Same.refl _
  · rw [settle_of_not_pending hno, hrun]
    simp only [atoms_nil, List.append_nil]
  · intro _
    have := measure_le
      { s with d := { s.d with hdr := s.d.hdr ++ s.data.take take }, data := s.data.drop take }
    rw [measure_of_not_pending hno]
    show measure _ < _
    simp only [] at this ⊢
    omega

theorem fail_hdr (d : WsDecoder) (code : Nat) (text : String) : (d.fail code text).hdr = d.hdr := by
  rw [WsDecoder.fail]
  split <;> rfl

theorem openMessage_hdr (d : WsDecoder) (rsv1 : Bool) : (openMessage d rsv1).hdr = d.hdr := by
  rw [openMessage]
  split <;> rfl

theorem startPayload_hdr (d : WsDecoder) (len : Nat) : (startPayload cfg d len).hdr = d.hdr := by
  rw [startPayload]
  split
  · rw [fail_hdr]
  · rfl

/-- Starting a frame uses the header up. -/
@[simp] theorem startFrame_hdr (d : WsDecoder) : (startFrame cfg d).hdr = [] := by
  unfold startFrame
  extract_lets b0 b1 len7 ext len masked key opcode fin rsv1 d₁
  split
  · exact fail_hdr ..
  · split
    · exact fail_hdr ..
    · split
      · rfl
      · split
        · exact (fail_hdr ..).trans (openMessage_hdr ..)
        · exact (startPayload_hdr ..).trans (openMessage_hdr ..)

/-- A turn that starts the frame of a complete header. -/
private theorem turn_start (s : FeedState) (h0 : s.d.failCode = 0)
    (hin : s.d.inPayload = false) (hdone : headerNeed s.d.hdr ≤ s.d.hdr.length) :
    Turn cfg s (feedTurn cfg sink s) := by
  have hp : Pending s.d := ⟨h0, hin, hdone⟩
  have hin' : ¬ s.d.inPayload = true := by
    rw [hin]
    exact Bool.false_ne_true
  -- the reference starts the frame as soon as the header is whole, the loop a turn later
  have hsettle : settle cfg s.d = beginFrame cfg s.d := if_pos hp
  obtain ⟨d, hd⟩ : ∃ d, d = startFrame cfg s.d := ⟨_, rfl⟩
  have hhdr : d.hdr = [] := hd ▸ startFrame_hdr cfg s.d
  -- the header may be refused; else its payload is taken in the same turn
  by_cases hfail : d.failCode ≠ 0
  · have heq : feedTurn cfg sink s = (false, { s with d := d }) := by
      rw [feedTurn, if_neg hin', if_neg (Nat.not_lt.mpr hdone), ← hd, if_pos hfail]
    have hbegin : beginFrame cfg s.d = (d, []) := by
      rw [beginFrame, ← hd, if_pos hfail]
    rw [heq]
    refine ⟨⟨[], rfl, ?_, ?_⟩, (Rest.of_failed hfail).ready, fun h => absurd hp h, (by rintro ⟨⟩),
      fun _ => ⟨Rest.of_failed hfail, Or.inl hfail⟩, Or.inl⟩
    · rw [settle_of_failed cfg hfail, hsettle, hbegin]
      exact Same.refl _
    · rw [settle_of_failed cfg hfail, hsettle, hbegin]
      simp only [atoms_nil, List.append_nil, byteRun]
  have hfail0 : d.failCode = 0 := not_not.mp hfail
  obtain ⟨evs, hevs⟩ :
      ∃ evs, evs = startEvents cfg s.d.inMessage { d with inPayload := true } := ⟨_, rfl⟩
  obtain ⟨s1, hs1⟩ :
      ∃ s1, s1 = notify sink { s with d := { d with inPayload := true } } evs := ⟨_, rfl⟩
  have hs1d : s1.d = { d with inPayload := true } := hs1 ▸ notify_d sink _ _
  have hs1data : s1.data = s.data := hs1 ▸ notify_data sink _ _
  have hs1log : s1.log = s.log ++ evs := hs1 ▸ notify_log sink _ _
  have heq : feedTurn cfg sink s = payloadTurn cfg sink s1 := by
    rw [feedTurn, if_neg hin', if_neg (Nat.not_lt.mpr hdone), ← hd, if_neg hfail, hs1, hevs]
  rw [heq]
  by_cases hrem : 0 < d.remaining
  · have hbegin : beginFrame cfg s.d = ({ d with inPayload := true }, evs) := by
      rw [beginFrame, ← hd, if_neg hfail, hevs]
      exact if_pos hrem
    obtain ⟨htook, hrest, hshort, hgo, hstop⟩ := payloadTurn_spec cfg sink s1
      (by rw [hs1d]; exact hfail0) (by rw [hs1d]) (by rw [hs1d]; exact hhdr)
      (by rw [hs1d]; exact hrem)
    have hs1settle : settle cfg s1.d = ({ d with inPayload := true }, []) := by
      rw [hs1d]
      exact settle_of_inPayload cfg rfl
    have hstart : Took cfg s s1 := by
      refine ⟨[], hs1data.symm, ?_, ?_⟩
      · rw [hs1settle, hsettle, hbegin]
        exact Same.refl _
      · rw [hs1settle, hsettle, hbegin, hs1log, atoms_append]
        simp only [atoms_nil, List.append_nil, byteRun]
    refine ⟨hstart.trans htook, hrest.ready, fun h => absurd hp h, ?_,
      fun h => ⟨hrest, hstop h⟩, fun _ => Or.inr hrest⟩
    intro h
    have := hshort (hgo h)
    rw [measure_of_not_pending hrest.settled, measure_of_pending hp, ← hs1data]
    omega
  · -- no payload: the frame ends where it starts
    have hbegin : beginFrame cfg s.d
        = ((completeFrame cfg { d with inPayload := true }).1,
            evs ++ (completeFrame cfg { d with inPayload := true }).2) := by
      rw [beginFrame, ← hd, if_neg hfail, hevs]
      exact if_neg hrem
    have hturn : payloadTurn cfg sink s1 = completeTurn cfg sink s1 := by
      rw [payloadTurn, if_neg (by rw [hs1d]; exact hrem)]
    obtain ⟨hgo, hd', hdata', hlog'⟩ := completeTurn_eq cfg sink s1
    have hrest : Rest (completeTurn cfg sink s1).2.d := by
      rw [hd', hs1d]
      exact Rest.of_completeFrame cfg hhdr
    rw [hturn]
    refine ⟨⟨[], ?_, ?_, ?_⟩, hrest.ready, fun h => absurd hp h, ?_,
      fun h => absurd (hgo.symm.trans h) (by decide), fun _ => Or.inr hrest⟩
    · rw [hdata', hs1data]
      rfl
    · rw [settle_of_not_pending hrest.settled, hsettle, hbegin, hd', hs1d]
      exact Same.refl _
    · rw [settle_of_not_pending hrest.settled, hsettle, hbegin, hlog', hs1log, hs1d]
      simp only [atoms_append, atoms_nil, List.append_nil, byteRun, List.append_assoc]
    · intro _
      rw [measure_of_not_pending hrest.settled, measure_of_pending hp, hdata', hs1data]
      omega

/-- One turn of the loop of `feed`. -/
theorem feedTurn_spec (s : FeedState) (h0 : s.d.failCode = 0) (hr : Ready s.d) :
    Turn cfg s (feedTurn cfg sink s) := by
  cases hin : s.d.inPayload with
  | true => exact turn_inPayload cfg sink s h0 hr hin
  | false =>
      rcases Nat.lt_or_ge s.d.hdr.length (headerNeed s.d.hdr) with hinc | hdone
      · exact turn_header cfg sink s h0 hin hinc
      · exact turn_start cfg sink s h0 hin hdone

/-! ## The loop -/

/-- The loop of `feed` with enough fuel: it took its input as `byteRun` does, and
    stopped because the decoder failed, the input ran out or the sink said so. -/
theorem feedLoop_spec {fuel : Nat} {s : FeedState} (hfuel : measure s < fuel)
    (hr : Ready s.d) (hs : s.stopped = true → Rest s.d) :
    Took cfg s (feedLoop cfg sink fuel s) ∧ Rest (feedLoop cfg sink fuel s).d
      ∧ ((feedLoop cfg sink fuel s).d.failCode ≠ 0 ∨ (feedLoop cfg sink fuel s).data = []
          ∨ (feedLoop cfg sink fuel s).stopped = true) := by
  induction fuel generalizing s with
  | zero => exact absurd hfuel (Nat.not_lt_zero _)
  | succ fuel ih =>
      rw [feedLoop]
      by_cases hend : s.d.failCode ≠ 0 ∨ s.stopped = true
      · rw [if_pos hend]
        refine ⟨Took.refl cfg s, ?_, hend.imp_right Or.inr⟩
        rcases hend with hf | hst
        · exact Rest.of_failed hf
        · exact hs hst
      · rw [if_neg hend]
        obtain ⟨h0, hst⟩ := not_or.mp hend
        have ht := feedTurn_spec cfg sink s (not_not.mp h0) hr
        cases hturn : feedTurn cfg sink s with
        | mk goes s' =>
            rw [hturn] at ht
            cases goes with
            | false =>
                obtain ⟨hrest, hstop⟩ := ht.stops rfl
                exact ⟨ht.took, hrest, hstop.imp_right Or.inl⟩
            | true =>
                have hlt := ht.goesOn rfl
                have hs' : s'.stopped = true → Rest s'.d :=
                  fun h => (ht.stopped h).resolve_left hst
                obtain ⟨htook, hrest, hstop⟩ :=
                  ih (show measure s' < fuel by simp only [] at hlt; omega) ht.ready hs'
                exact ⟨ht.took.trans htook, hrest, hstop⟩

/-- The loop never gives input back. -/
theorem feedLoop_length_le {fuel : Nat} {s : FeedState} (hr : Ready s.d) :
    (feedLoop cfg sink fuel s).data.length ≤ s.data.length := by
  induction fuel generalizing s with
  | zero => exact Nat.le_refl _
  | succ fuel ih =>
      rw [feedLoop]
      by_cases hend : s.d.failCode ≠ 0 ∨ s.stopped = true
      · rw [if_pos hend]
      · rw [if_neg hend]
        have ht := feedTurn_spec cfg sink s (not_not.mp (not_or.mp hend).1) hr
        have hle : (feedTurn cfg sink s).2.data.length ≤ s.data.length := by
          obtain ⟨used, hd, -⟩ := ht.took
          rw [hd, List.length_append]
          omega
        cases hturn : feedTurn cfg sink s with
        | mk goes s' =>
            rw [hturn] at ht hle
            cases goes with
            | false => exact hle
            | true => exact Nat.le_trans (ih ht.ready) hle

/-! ## Calls of `feed` -/

/-- The state a call of `feed` starts its loop in. -/
private def feedStart (d : WsDecoder) (log : List Event) (data : List UInt8) : FeedState :=
  { d := d, data := data, log := log, stopped := false }

/-- A call of `feed` between two frames, inside a header or inside a payload: it
    consumes part of the input and does what `byteRun` does on that part.  It
    stops early only if the decoder fails or the sink stops it. -/
theorem feed_byteRun (d : WsDecoder) (log : List Event) (data : List UInt8)
    (hd : Rest d) :
    ∃ used, data = used ++ (feed cfg sink d log data).data
      ∧ Same (feed cfg sink d log data).d (byteRun cfg d used).1
      ∧ atoms (feed cfg sink d log data).log = atoms log ++ atoms (byteRun cfg d used).2
      ∧ Rest (feed cfg sink d log data).d
      ∧ ((feed cfg sink d log data).d.failCode ≠ 0 ∨ (feed cfg sink d log data).data = []
          ∨ (feed cfg sink d log data).stopped = true) := by
  have hm : measure (feedStart d log data) < 2 * data.length + 2 :=
    Nat.lt_of_le_of_lt (measure_le _) (Nat.lt_succ_self _)
  obtain ⟨⟨used, hu, hsame, hatoms⟩, hrest, hstop⟩ :=
    feedLoop_spec cfg sink hm hd.ready (by rintro ⟨⟩)
  have hbefore : settle cfg (feedStart d log data).d = (d, []) :=
    settle_of_not_pending hd.settled
  rw [settle_of_not_pending hrest.settled, hbefore] at hsame hatoms
  refine ⟨used, hu, hsame, ?_, hrest, hstop⟩
  rw [atoms_nil, List.append_nil, List.append_nil] at hatoms
  exact hatoms

/-- A call of `feed` that is given input takes some of it, unless the decoder has
    failed. -/
theorem feed_progress (d : WsDecoder) (log : List Event) {data : List UInt8}
    (hd : Rest d) (h0 : d.failCode = 0) (hdata : data ≠ []) :
    (feed cfg sink d log data).data.length < data.length := by
  have hcond : ¬ ((feedStart d log data).d.failCode ≠ 0
      ∨ (feedStart d log data).stopped = true) := by
    rintro (h | h)
    · exact h h0
    · exact Bool.false_ne_true h
  have ht := feedTurn_spec cfg sink (feedStart d log data) h0 hd.ready
  have hlt := ht.shorter hd.settled hdata
  show (feedLoop cfg sink (2 * data.length + 1 + 1) (feedStart d log data)).data.length < _
  rw [feedLoop, if_neg hcond]
  cases hturn : feedTurn cfg sink (feedStart d log data) with
  | mk goes s' =>
      rw [hturn] at ht hlt
      cases goes with
      | false => exact hlt
      | true => exact Nat.lt_of_le_of_lt (feedLoop_length_le cfg sink ht.ready) hlt

/-! ## Runs -/

/-- A byte sequence fed to a decoder: each call of `feed` gets some first part of
    the bytes not consumed so far, with a sink that stops it as it likes, and the
    bytes it leaves are fed again.  The run is over when everything is consumed or
    the decoder has failed. -/
inductive FeedRun (cfg : Config) :
    WsDecoder → List Event → List UInt8 → WsDecoder → List Event → Prop
  | consumed (d : WsDecoder) (log : List Event) : FeedRun cfg d log [] d log
  | failed (d : WsDecoder) (log : List Event) (bytes : List UInt8)
      (h : d.failCode ≠ 0) : FeedRun cfg d log bytes d log
  | call (d : WsDecoder) (log : List Event) (piece later : List UInt8) (sink : Sink)
      (d' : WsDecoder) (log' : List Event)
      (h : FeedRun cfg (feed cfg sink d log piece).d (feed cfg sink d log piece).log
        ((feed cfg sink d log piece).data ++ later) d' log') :
      FeedRun cfg d log (piece ++ later) d' log'

/-- A run does what `byteRun` does on the whole sequence. -/
theorem feedRun_byteRun {d d' : WsDecoder} {log log' : List Event} {bytes : List UInt8}
    (h : FeedRun cfg d log bytes d' log') (hd : Rest d) :
    Same d' (byteRun cfg d bytes).1 ∧ atoms log' = atoms log ++ atoms (byteRun cfg d bytes).2 := by
  induction h with
  | consumed d log => exact ⟨Same.refl d, (List.append_nil _).symm⟩
  | failed d log bytes hf =>
      rw [byteRun_failed cfg hf]
      exact ⟨Same.refl d, (List.append_nil _).symm⟩
  | call d log piece later sink d' log' _ ih =>
      obtain ⟨used, hu, hsame, hatoms, hrest, -⟩ := feed_byteRun cfg sink d log piece hd
      obtain ⟨hs, ha⟩ := ih hrest
      obtain ⟨hb, hc⟩ :=
        byteRun_same cfg hsame ((feed cfg sink d log piece).data ++ later)
      have hall : piece ++ later = used ++ ((feed cfg sink d log piece).data ++ later) := by
        rw [← List.append_assoc, ← hu]
      rw [hall, byteRun_append]
      refine ⟨hs.trans hb, ?_⟩
      rw [ha, hatoms, hc, atoms_append, List.append_assoc]

/-- A run as far as it has come: some calls of `feed`, and the bytes they left. -/
inductive FeedCalls (cfg : Config) :
    WsDecoder → List Event → List UInt8 → WsDecoder → List Event → List UInt8 → Prop
  | none (d : WsDecoder) (log : List Event) (bytes : List UInt8) :
      FeedCalls cfg d log bytes d log bytes
  | call (d : WsDecoder) (log : List Event) (piece later : List UInt8) (sink : Sink)
      (d' : WsDecoder) (log' : List Event) (rest : List UInt8)
      (h : FeedCalls cfg (feed cfg sink d log piece).d (feed cfg sink d log piece).log
        ((feed cfg sink d log piece).data ++ later) d' log' rest) :
      FeedCalls cfg d log (piece ++ later) d' log' rest

/-- Every call of feed leaves the decoder at rest. -/
theorem FeedCalls.rest {d d' : WsDecoder} {log log' : List Event} {bytes rest : List UInt8}
    (h : FeedCalls cfg d log bytes d' log' rest) (hd : Rest d) : Rest d' := by
  induction h with
  | none d log bytes => exact hd
  | call d log piece later sink d' log' rest _ ih =>
      obtain ⟨-, -, -, -, hrest, -⟩ := feed_byteRun cfg sink d log piece hd
      exact ih hrest

/-- A run that has begun and goes on to an end is a run. -/
theorem FeedCalls.feedRun {d d' d₂ : WsDecoder} {log log' log₂ : List Event}
    {bytes rest : List UInt8} (h : FeedCalls cfg d log bytes d' log' rest)
    (hrun : FeedRun cfg d' log' rest d₂ log₂) : FeedRun cfg d log bytes d₂ log₂ := by
  induction h with
  | none d log bytes => exact hrun
  | call d log piece later sink d' log' rest _ ih =>
    exact .call d log piece later sink _ _ (ih hrun)

/-- At most `n` calls of `feed`, until everything is consumed or the decoder has failed.  The
    call after which `n` may follow gets `size n + 1` bytes and the sink `sink n`. -/
def feedAll (cfg : Config) (size : Nat → Nat) (sink : Nat → Sink) :
    Nat → WsDecoder → List Event → List UInt8 → WsDecoder × List Event
  | 0, d, log, _ => (d, log)
  | n + 1, d, log, bytes =>
      if bytes = [] ∨ d.failCode ≠ 0 then (d, log)
      else
        let r := feed cfg (sink n) d log (bytes.take (size n + 1))
        feedAll cfg size sink n r.d r.log (r.data ++ bytes.drop (size n + 1))

/-- Whatever its sinks answer and wherever the sequence is cut, a run is at its end after as
    many calls as there are bytes. -/
theorem feedAll_run (size : Nat → Nat) (sink : Nat → Sink) {n : Nat} {d : WsDecoder}
    (hd : Rest d) (log : List Event) {bytes : List UInt8} (hn : bytes.length ≤ n) :
    FeedRun cfg d log bytes (feedAll cfg size sink n d log bytes).1
      (feedAll cfg size sink n d log bytes).2 := by
  induction n generalizing d log bytes with
  | zero =>
      obtain rfl := List.length_eq_zero_iff.mp (Nat.le_zero.mp hn)
      exact .consumed d log
  | succ n ih =>
      rw [feedAll]
      by_cases hb : bytes = []
      · rw [if_pos (.inl hb), hb]
        exact .consumed d log
      by_cases h0 : d.failCode = 0
      · have hpiece : bytes.take (size n + 1) ≠ [] := by
          intro h
          rcases List.take_eq_nil_iff.mp h with h | h
          · cases h
          · exact hb h
        have hlt := feed_progress cfg (sink n) d log hd h0 hpiece
        obtain ⟨-, -, -, -, hrest, -⟩ :=
          feed_byteRun cfg (sink n) d log (bytes.take (size n + 1)) hd
        have hless : ((feed cfg (sink n) d log (bytes.take (size n + 1))).data
            ++ bytes.drop (size n + 1)).length ≤ n := by
          rw [List.length_take] at hlt
          rw [List.length_append, List.length_drop]
          omega
        rw [if_neg (not_or.mpr ⟨hb, not_not.mpr h0⟩)]
        have hrun := FeedRun.call d log (bytes.take (size n + 1)) (bytes.drop (size n + 1))
          (sink n) _ _ (ih hrest (feed cfg (sink n) d log (bytes.take (size n + 1))).log hless)
        rw [List.take_append_drop] at hrun
        exact hrun
      · rw [if_pos (.inr h0)]
        exact .failed d log bytes h0

end WsFrame

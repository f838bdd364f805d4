import EcoCompiler.WsFrameHeaderProofs
import EcoCompiler.WsFrameFeedProofs

/-! # The decoder reads the frame grammar

    Between two frames the decoder holds the data message in progress (`Between`),
    inside a payload it also holds the frame's header (`Inside`).  A frame takes it
    from one such state to the next, so that reading bytes one at a time says what
    `reference` says of all of them.

    * `byteRun_reference`: from any state between two frames;
    * `feedRun_reference`: for every run of a fresh decoder. -/

namespace WsFrame

open Utf8Spec

variable (cfg : Config)

/-! ## The states of the decoder -/

/-- The message members of the decoder hold a message. -/
structure Holds (d : WsDecoder) (m : Message) : Prop where
  opcode : d.msgOpcode = m.opcode
  compressed : d.msgCompressed = m.compressed
  size : m.Limited cfg → d.msgSize = m.size ∧ m.size ≤ cfg.maxMessage.toNat
  payload : cfg.Whole → d.message = m.payload
  utf8 : m.IsText cfg → d.utf8 = Utf8Validator.feed {} m.payload ∧ d.utf8.failed = false

/-- The decoder is between two frames, with the message `cur` in progress. -/
structure Between (d : WsDecoder) (cur : Option Message) : Prop where
  ok : d.failCode = 0
  outside : d.inPayload = false
  hdr : d.hdr = []
  inMessage : d.inMessage = cur.isSome
  holds : ∀ m, cur = some m → Holds cfg d m

/-- The decoder is at the start of the payload of a frame with header `h`. -/
structure Inside (d : WsDecoder) (h : Header) (cur : Option Message) : Prop where
  ok : d.failCode = 0
  inside : d.inPayload = true
  hdr : d.hdr = []
  fin : d.fin = h.fin
  opcode : d.opcode = h.opcode
  masked : d.masked = h.masked
  mask : h.masked = true → d.mask = h.key
  offset : d.maskOffset = 0
  remaining : d.remaining = h.len
  isControl : d.frameIsControl = decide h.IsControl
  control : h.IsControl → d.control = []
  inMessage : d.inMessage = cur.isSome
  holds : ∀ m, cur = some m → Holds cfg d m

theorem between_start : Between cfg {} none :=
  ⟨rfl, rfl, rfl, rfl, (by simp)⟩

/-! ## The payload of a frame -/

theorem applyMask_eq_mapIdx (data : List UInt8) (mask : Mask) (off : Nat) :
    applyMask data mask off
      = data.mapIdx fun i b => b ^^^ mask ⟨(off + i) % 4, Nat.mod_lt _ (Nat.succ_pos 3)⟩ := by
  induction data generalizing off with
  | nil => rfl
  | cons b rest ih =>
      rw [applyMask, ih, List.mapIdx_cons]
      simp only [Nat.add_zero, Nat.add_assoc, Nat.add_comm 1]

variable {cfg}

theorem Inside.unmasked_eq {d : WsDecoder} {h : Header} {cur : Option Message}
    (hi : Inside cfg d h cur) (bytes : List UInt8) : unmasked d bytes = h.unmask bytes := by
  rw [unmasked, Header.unmask, hi.masked]
  by_cases hm : h.masked = true
  · rw [if_pos hm, if_pos hm, hi.offset, hi.mask hm, applyMask_eq_mapIdx]
    simp only [Nat.zero_add]
  · rw [if_neg hm, if_neg hm]

theorem afterChunk_nil {d : WsDecoder} (h : d.maskOffset = 0) : afterChunk cfg d [] = d := by
  have hu : unmasked d [] = [] := by
    rw [unmasked]
    split <;> rfl
  obtain ⟨hdr, inPayload, fin, opcode, masked, mask, remaining, off, isControl, control,
    inMessage, compressed, msgOpcode, msgSize, message, utf8, failCode, failText⟩ := d
  simp only [] at h
  subst h
  rw [afterChunk, hu, WsDecoder.store, WsDecoder.advance]
  simp only [List.append_nil, Utf8Validator.feed, ite_self, List.length_nil, Nat.sub_zero,
    Nat.zero_add, Nat.zero_mod]

theorem atoms_chunkEvents_nil (d : WsDecoder) : atoms (chunkEvents cfg d []) = [] := by
  have hu : unmasked d [] = [] := by
    rw [unmasked]
    split <;> rfl
  rw [chunkEvents, hu]
  split <;> rfl

variable (cfg)

/-- A frame whose payload is empty is over as soon as it starts. -/
def opened (d : WsDecoder) : WsDecoder × List Event :=
  if 0 < d.remaining then (d, []) else completeFrame cfg d

/-- The decoder from the start of a payload to the end of the input. -/
def payloadRun (d : WsDecoder) (rest : List UInt8) : WsDecoder × List Event :=
  let r := byteRun cfg (opened cfg d).1 rest
  (r.1, (opened cfg d).2 ++ r.2)

variable {cfg}

/-- With nothing of the payload there, the validator is as it was. -/
private theorem chunkFails_nil {d : WsDecoder} (hf : checksText cfg d = true →
    d.utf8.failed = false) : ¬ ChunkFails cfg d [] := by
  intro h
  obtain ⟨h1, h2⟩ := (Bool.and_eq_true _ _).mp h
  have hu : unmasked d [] = [] := by
    rw [unmasked]
    split <;> rfl
  rw [hu] at h2
  exact Bool.false_ne_true ((hf h1).symm.trans h2)

/-- The part of a payload that is there. -/
private theorem payloadRun_split {d : WsDecoder} (rest : List UInt8)
    (hrem : 0 < d.remaining) :
    payloadRun cfg d rest
      = ((byteRun cfg (byteRun cfg d (rest.take d.remaining)).1 (rest.drop d.remaining)).1,
          (byteRun cfg d (rest.take d.remaining)).2
            ++ (byteRun cfg (byteRun cfg d (rest.take d.remaining)).1
                (rest.drop d.remaining)).2) := by
  have hopen : opened cfg d = (d, []) := if_pos hrem
  rw [payloadRun, hopen, ← byteRun_append, List.take_append_drop]
  rfl

/-- A payload with a byte the validator refuses. -/
theorem payloadRun_fails {d : WsDecoder} (h0 : d.failCode = 0) (hin : d.inPayload = true)
    (hu : checksText cfg d = true → d.utf8.failed = false) {rest : List UInt8}
    (hf : ChunkFails cfg d (rest.take d.remaining)) :
    (payloadRun cfg d rest).1.failCode = kCloseInvalidData
      ∧ atoms (payloadRun cfg d rest).2 = [] := by
  have hne : rest.take d.remaining ≠ [] := by
    intro hnil
    rw [hnil] at hf
    exact chunkFails_nil hu hf
  have hrem : 0 < d.remaining := by
    refine Nat.pos_of_ne_zero ?_
    intro hz
    rw [hz] at hne
    exact hne rfl
  obtain ⟨hs, ha⟩ := payloadStep_byteRun cfg h0 hin hne (List.length_take_le _ _)
  obtain ⟨hc, he⟩ := payloadStep_fails h0 hf
  have hcode : (byteRun cfg d (rest.take d.remaining)).1.failCode = kCloseInvalidData :=
    hs.1.symm.trans hc
  have hfail : (byteRun cfg d (rest.take d.remaining)).1.failCode ≠ 0 := by
    rw [hcode]
    decide
  rw [payloadRun_split rest hrem, byteRun_failed cfg hfail]
  refine ⟨hcode, ?_⟩
  rw [List.append_nil, ← ha, he]
  rfl

/-- A payload that is not all there. -/
theorem payloadRun_short {d : WsDecoder} (h0 : d.failCode = 0) (hin : d.inPayload = true)
    {rest : List UInt8} (hf : ¬ ChunkFails cfg d (rest.take d.remaining))
    (hlen : rest.length < d.remaining) :
    (payloadRun cfg d rest).1.failCode = 0
      ∧ atoms (payloadRun cfg d rest).2
        = atoms (chunkEvents cfg d (rest.take d.remaining)) := by
  have hopen : opened cfg d = (d, []) := if_pos (Nat.zero_lt_of_lt hlen)
  have htake : rest.take d.remaining = rest := List.take_of_length_le (Nat.le_of_lt hlen)
  have hrun : payloadRun cfg d rest = byteRun cfg d rest := by
    rw [payloadRun, hopen]
    rfl
  rw [htake] at hf
  rw [hrun, htake]
  by_cases hnil : rest = []
  · subst hnil
    exact ⟨h0, (atoms_chunkEvents_nil d).symm⟩
  · obtain ⟨hs, ha⟩ := payloadStep_byteRun cfg h0 hin hnil (Nat.le_of_lt hlen)
    rw [payloadStep_more hf hlen] at hs ha
    exact ⟨hs.1.symm.trans h0, ha.symm⟩

/-- A payload that is all there, and what comes after it. -/
theorem payloadRun_full {d : WsDecoder} (h0 : d.failCode = 0) (hin : d.inPayload = true)
    (hoff : d.maskOffset = 0) {rest : List UInt8}
    (hf : ¬ ChunkFails cfg d (rest.take d.remaining)) (hlen : d.remaining ≤ rest.length) :
    Same (payloadRun cfg d rest).1
        (byteRun cfg (completeFrame cfg (afterChunk cfg d (rest.take d.remaining))).1
          (rest.drop d.remaining)).1
      ∧ atoms (payloadRun cfg d rest).2
        = atoms (chunkEvents cfg d (rest.take d.remaining))
          ++ (atoms (completeFrame cfg (afterChunk cfg d (rest.take d.remaining))).2
            ++ atoms (byteRun cfg
                (completeFrame cfg (afterChunk cfg d (rest.take d.remaining))).1
                (rest.drop d.remaining)).2) := by
  by_cases hrem : 0 < d.remaining
  · have htake : (rest.take d.remaining).length = d.remaining := by
      rw [List.length_take]
      omega
    have hne : rest.take d.remaining ≠ [] := by
      refine List.ne_nil_of_length_pos ?_
      omega
    obtain ⟨hs, ha⟩ := payloadStep_byteRun cfg h0 hin hne (Nat.le_of_eq htake)
    rw [payloadStep_last h0 hf (Nat.le_of_eq htake.symm)] at hs ha
    obtain ⟨hb, hc⟩ := byteRun_same cfg hs (rest.drop d.remaining)
    rw [payloadRun_split rest hrem]
    refine ⟨⟨hb.1.symm, fun hz => (hb.2 (hb.1.trans hz)).symm⟩, ?_⟩
    show atoms (_ ++ _) = _
    rw [atoms_append, ← ha, ← hc, atoms_append, List.append_assoc]
  · have hz : d.remaining = 0 := Nat.eq_zero_of_not_pos hrem
    have hopen : opened cfg d = completeFrame cfg d := if_neg hrem
    rw [hz, List.take_zero, afterChunk_nil hoff, atoms_chunkEvents_nil, List.drop_zero,
      payloadRun, hopen]
    refine ⟨Same.refl _, ?_⟩
    show atoms (_ ++ _) = _
    rw [atoms_append]
    rfl

/-! ## Data frames -/

/-- The message a data frame extends, with the size the header announces. -/
theorem holds_extend_nil {d : WsDecoder} {m : Message} {len : Nat} (hd : Holds cfg d m)
    (hsize : m.Limited cfg → m.size + len ≤ cfg.maxMessage.toNat) :
    Holds cfg { d with msgSize := (d.msgSize + len) % 2 ^ 64 } (m.extend len []) := by
  have hnil : m.payload ++ [] = m.payload := List.append_nil _
  refine ⟨hd.opcode, hd.compressed, ?_, ?_, ?_⟩
  · intro hl
    have hmax := cfg.maxMessage.toNat_lt
    have hle := hsize hl
    refine ⟨?_, hle⟩
    show (d.msgSize + len) % 2 ^ 64 = m.size + len
    rw [(hd.size hl).1]
    omega
  · intro hw
    exact (hd.payload hw).trans hnil.symm
  · intro ht
    show d.utf8 = Utf8Validator.feed {} (m.payload ++ []) ∧ _
    rw [hnil]
    exact hd.utf8 ht

section
variable {d : WsDecoder} {h : Header} {cur : Option Message} {m : Message}

private theorem checksText_iff (hi : Inside cfg d h cur) (hc : ¬ h.IsControl)
    (hm : Holds cfg d m) : checksText cfg d = true ↔ m.IsText cfg := by
  have hctl : d.frameIsControl = false := hi.isControl.trans (decide_eq_false hc)
  rw [checksText, keepsMessage, hctl, hm.opcode, Message.IsText, Config.Whole]
  simp only [Bool.and_eq_true, Bool.not_eq_true', beq_iff_eq]
  exact ⟨fun ⟨⟨⟨_, h1⟩, h2⟩, h3⟩ => ⟨⟨h1, h2⟩, h3⟩, fun ⟨⟨h1, h2⟩, h3⟩ => ⟨⟨⟨trivial, h1⟩, h2⟩, h3⟩⟩

private theorem checksText_control (hi : Inside cfg d h cur) (hc : h.IsControl) :
    checksText cfg d = false := by
  have hctl : d.frameIsControl = true := hi.isControl.trans (decide_eq_true hc)
  rw [checksText, keepsMessage, hctl]
  rfl

/-- The decoder fails on the part of a payload that is there exactly when the text
    up to it cannot be continued to UTF-8. -/
theorem chunkFails_iff (hi : Inside cfg d h cur) (hc : ¬ h.IsControl) (hm : Holds cfg d m)
    (bytes : List UInt8) :
    ChunkFails cfg d bytes
      ↔ m.IsText cfg ∧ ¬ ValidPrefix (m.payload ++ h.unmask bytes) := by
  rw [ChunkFails, Bool.and_eq_true, checksText_iff hi hc hm, hi.unmasked_eq]
  refine and_congr_right fun ht => ?_
  rw [(hm.utf8 ht).1, ← Utf8Validator.feed_append, ← feed_ok_iff, Bool.not_eq_false]

/-- The message after the part of a payload that is there. -/
theorem holds_afterChunk (hi : Inside cfg d h cur) (hc : ¬ h.IsControl)
    (hm : Holds cfg d m) {bytes : List UInt8} (hf : ¬ ChunkFails cfg d bytes) :
    Holds cfg (afterChunk cfg d bytes) (m.extend 0 (h.unmask bytes)) := by
  have hctl : d.frameIsControl = false := hi.isControl.trans (decide_eq_false hc)
  refine ⟨hm.opcode, hm.compressed, hm.size, ?_, ?_⟩
  · intro hw
    have hk : keepsMessage cfg d = true := by
      rw [keepsMessage, hctl, hw.1, hw.2]
      rfl
    show (if keepsMessage cfg d = true then d.message ++ unmasked d bytes else d.message) = _
    rw [if_pos hk, hm.payload hw, hi.unmasked_eq]
    rfl
  · intro ht
    have hk : checksText cfg d = true := (checksText_iff hi hc hm).mpr ht
    have hu : (afterChunk cfg d bytes).utf8
        = Utf8Validator.feed {} (m.payload ++ h.unmask bytes) := by
      show (if checksText cfg d = true then d.utf8.feed (unmasked d bytes) else d.utf8) = _
      rw [if_pos hk, (hm.utf8 ht).1, hi.unmasked_eq, Utf8Validator.feed_append]
    refine ⟨hu, ?_⟩
    rw [chunkFails_iff hi hc hm] at hf
    rw [hu, feed_ok_iff]
    exact not_not.mp (fun hv => hf ⟨ht, hv⟩)

/-- What raw mode says of the frame's bytes. -/
theorem said_eq (hi : Inside cfg d h cur) (hc : ¬ h.IsControl) (hm : Holds cfg d m)
    (wasInMessage : Bool) (bytes : List UInt8) :
    atoms (startEvents cfg wasInMessage d) ++ atoms (chunkEvents cfg d bytes)
      = rawAtoms cfg (!wasInMessage) m (h.unmask bytes) := by
  have hctl : d.frameIsControl = false := hi.isControl.trans (decide_eq_false hc)
  rw [startEvents, chunkEvents, rawAtoms, hctl, hi.unmasked_eq, hm.opcode, hm.compressed]
  cases hr : cfg.raw <;> cases hdisc : cfg.discard <;> cases wasInMessage <;>
    simp [atoms, Event.atoms]

/-- A control frame says nothing before its end. -/
theorem said_control (hi : Inside cfg d h cur) (hc : h.IsControl)
    (wasInMessage : Bool) (bytes : List UInt8) :
    startEvents cfg wasInMessage d = [] ∧ chunkEvents cfg d bytes = [] := by
  have hctl : d.frameIsControl = true := hi.isControl.trans (decide_eq_true hc)
  rw [startEvents, chunkEvents, hctl]
  exact ⟨if_neg (by simp), if_neg (by simp)⟩

/-! ## The end of a frame -/

/-- The end of a control frame leaves the message in progress alone. -/
theorem end_control (hi : Inside cfg d h cur) (hc : h.IsControl) (bytes : List UInt8) :
    Between cfg (completeFrame cfg (afterChunk cfg d bytes)).1 cur
      ∧ (completeFrame cfg (afterChunk cfg d bytes)).2
        = [.onControl h.opcode (h.unmask bytes)] := by
  have hctl : d.frameIsControl = true := hi.isControl.trans (decide_eq_true hc)
  have hkeep : keepsMessage cfg d = false := by
    rw [keepsMessage, hctl]
    rfl
  have heq : completeFrame cfg (afterChunk cfg d bytes)
      = ({ afterChunk cfg d bytes with inPayload := false, control := [] },
          [.onControl d.opcode (afterChunk cfg d bytes).control]) := by
    rw [completeFrame]
    exact if_pos hctl
  have hmsg : (afterChunk cfg d bytes).message = d.message := by
    show (if keepsMessage cfg d = true then _ else _) = _
    rw [hkeep]
    exact if_neg Bool.false_ne_true
  have hutf8 : (afterChunk cfg d bytes).utf8 = d.utf8 := by
    show (if checksText cfg d = true then _ else _) = _
    rw [checksText_control hi hc]
    exact if_neg Bool.false_ne_true
  have hcontrol : (afterChunk cfg d bytes).control = h.unmask bytes := by
    show (if d.frameIsControl = true then d.control ++ unmasked d bytes else d.control) = _
    rw [if_pos hctl, hi.control hc, hi.unmasked_eq]
    rfl
  rw [heq]
  refine ⟨⟨hi.ok, rfl, hi.hdr, hi.inMessage, ?_⟩, ?_⟩
  · intro m hcur
    have hm := hi.holds m hcur
    refine ⟨hm.opcode, hm.compressed, hm.size, ?_, ?_⟩
    · intro hw
      exact hmsg.trans (hm.payload hw)
    · intro ht
      show (afterChunk cfg d bytes).utf8 = _ ∧ (afterChunk cfg d bytes).utf8.failed = false
      rw [hutf8]
      exact hm.utf8 ht
  · rw [hcontrol, hi.opcode]

/-- The end of a data frame that is not the last of its message. -/
theorem end_fragment (hi : Inside cfg d h (some m)) (hc : ¬ h.IsControl) (hfin : h.fin = false)
    {bytes : List UInt8} (hf : ¬ ChunkFails cfg d bytes) :
    Between cfg (completeFrame cfg (afterChunk cfg d bytes)).1
        (some (m.extend 0 (h.unmask bytes)))
      ∧ (completeFrame cfg (afterChunk cfg d bytes)).2 = [] := by
  have hctl : ¬ d.frameIsControl = true := by
    rw [hi.isControl, decide_eq_false hc]
    exact Bool.false_ne_true
  have hm := holds_afterChunk hi hc (hi.holds m rfl) hf
  have heq : completeFrame cfg (afterChunk cfg d bytes)
      = ({ afterChunk cfg d bytes with inPayload := false }, []) := by
    have hnf : (!d.fin) = true := by
      rw [hi.fin, hfin]
      rfl
    rw [completeFrame]
    exact (if_neg hctl).trans (if_pos hnf)
  rw [heq]
  refine ⟨⟨hi.ok, rfl, hi.hdr, hi.inMessage, ?_⟩, rfl⟩
  intro m' hm'
  obtain rfl := Option.some.inj hm'
  exact ⟨hm.opcode, hm.compressed, hm.size, hm.payload, hm.utf8⟩

/-- `completeFrame` on the last frame of a message. -/
private theorem completeFrame_last {e : WsDecoder} (hctl : e.frameIsControl = false)
    (hfin : e.fin = true) :
    completeFrame cfg e
      = if cfg.discard = true then
          ({ e with inPayload := false, inMessage := false, msgSize := 0 }, [])
        else if cfg.raw = true then
          ({ e with inPayload := false, inMessage := false, msgSize := 0 }, [.onDataEnd])
        else if e.msgOpcode = kOpText ∧ (!e.utf8.complete) = true then
          ({ e with inPayload := false, inMessage := false, msgSize := 0 }.fail
            kCloseInvalidData "invalid UTF-8 in a text message", [])
        else
          ({ e with inPayload := false, inMessage := false, msgSize := 0, message := [] },
            [.onMessage e.msgOpcode e.message]) := by
  have h1 : ¬ e.frameIsControl = true := by
    rw [hctl]
    exact Bool.false_ne_true
  have h2 : ¬ (!e.fin) = true := by
    rw [hfin]
    exact Bool.false_ne_true
  rw [completeFrame]
  exact (if_neg h1).trans (if_neg h2)

/-- The test at the end of a Whole-mode message. -/
private theorem incomplete_iff {e : WsDecoder} (hm : Holds cfg e m) (hw : cfg.Whole) :
    (e.msgOpcode = kOpText ∧ (!e.utf8.complete) = true)
      ↔ m.IsText cfg ∧ ¬ Valid m.payload := by
  rw [Bool.not_eq_true', hm.opcode, Message.IsText]
  constructor
  · rintro ⟨ho, hcomp⟩
    refine ⟨⟨hw, ho⟩, fun hv => ?_⟩
    rw [(hm.utf8 ⟨hw, ho⟩).1, (feed_complete_iff _).mpr hv] at hcomp
    exact Bool.noConfusion hcomp
  · rintro ⟨⟨-, ho⟩, hv⟩
    refine ⟨ho, ?_⟩
    rw [(hm.utf8 ⟨hw, ho⟩).1]
    exact Bool.eq_false_iff.mpr fun hcomp => hv ((feed_complete_iff _).mp hcomp)

/-- The end of a text message that is not UTF-8. -/
theorem end_invalid (hi : Inside cfg d h (some m)) (hc : ¬ h.IsControl) (hfin : h.fin = true)
    {bytes : List UInt8} (hf : ¬ ChunkFails cfg d bytes)
    (hbad : m.IsText cfg ∧ ¬ Valid (m.payload ++ h.unmask bytes)) :
    (completeFrame cfg (afterChunk cfg d bytes)).1.failCode = kCloseInvalidData
      ∧ (completeFrame cfg (afterChunk cfg d bytes)).2 = [] := by
  have hctl : d.frameIsControl = false := hi.isControl.trans (decide_eq_false hc)
  have hm := holds_afterChunk hi hc (hi.holds m rfl) hf
  obtain ⟨hdisc, hraw⟩ := hbad.1.1
  have h1 : ¬ cfg.discard = true := by
    rw [hdisc]
    exact Bool.false_ne_true
  have h2 : ¬ cfg.raw = true := by
    rw [hraw]
    exact Bool.false_ne_true
  rw [completeFrame_last (e := afterChunk cfg d bytes) hctl (hi.fin.trans hfin),
    if_neg h1, if_neg h2, if_pos ((incomplete_iff hm ⟨hdisc, hraw⟩).mpr hbad)]
  refine ⟨?_, rfl⟩
  rw [fail_failCode]
  exact if_pos hi.ok

/-- The end of the last frame of any other message. -/
theorem end_message (hi : Inside cfg d h (some m)) (hc : ¬ h.IsControl) (hfin : h.fin = true)
    {bytes : List UInt8} (hf : ¬ ChunkFails cfg d bytes)
    (hgood : ¬ (m.IsText cfg ∧ ¬ Valid (m.payload ++ h.unmask bytes))) :
    Between cfg (completeFrame cfg (afterChunk cfg d bytes)).1 none
      ∧ atoms (completeFrame cfg (afterChunk cfg d bytes)).2
        = endAtoms cfg (m.extend 0 (h.unmask bytes)) := by
  have hctl : d.frameIsControl = false := hi.isControl.trans (decide_eq_false hc)
  have hm := holds_afterChunk hi hc (hi.holds m rfl) hf
  rw [completeFrame_last (e := afterChunk cfg d bytes) hctl (hi.fin.trans hfin),
    endAtoms]
  by_cases hdisc : cfg.discard = true
  · rw [if_pos hdisc, if_pos hdisc]
    exact ⟨⟨hi.ok, rfl, hi.hdr, rfl, (by simp)⟩, rfl⟩
  rw [if_neg hdisc, if_neg hdisc]
  by_cases hraw : cfg.raw = true
  · rw [if_pos hraw, if_pos hraw]
    exact ⟨⟨hi.ok, rfl, hi.hdr, rfl, (by simp)⟩, rfl⟩
  have hw : cfg.Whole := ⟨Bool.eq_false_iff.mpr hdisc, Bool.eq_false_iff.mpr hraw⟩
  rw [if_neg hraw, if_neg hraw, if_neg (fun ht => hgood ((incomplete_iff hm hw).mp ht))]
  refine ⟨⟨hi.ok, rfl, hi.hdr, rfl, (by simp)⟩, ?_⟩
  rw [hm.payload hw, hm.opcode]
  rfl

/-! ## The start of a frame -/

section
variable {b0 b1 : UInt8} {tail : List UInt8}

/-- A header that breaks a rule. -/
theorem startFrame_illegal (hb : Between cfg d cur) (hh : h = Header.read b0 b1 tail)
    (hl : ¬ h.Legal cfg cur.isSome) :
    (startFrame cfg { d with hdr := b0 :: b1 :: tail }).failCode = kCloseProtocolError := by
  have hfail : ∀ (e : WsDecoder) (text : String), e.failCode = 0 →
      (e.fail kCloseProtocolError text).failCode = kCloseProtocolError := by
    intro e text he
    rw [fail_failCode, if_pos he]
  rw [startFrame_eq cfg d b0 b1 tail h hh]
  cases he : headerError cfg b0.toNat (b1.toNat % 128) h.len h.masked with
  | some text => exact hfail _ text hb.ok
  | none =>
      cases hm : messageError d.inMessage h.opcode h.len h.fin with
      | some text => exact hfail _ text hb.ok
      | none =>
          rw [hb.inMessage] at hm
          subst hh
          exact absurd ((errors_eq_none_iff cfg b0 b1 tail _).mp ⟨he, hm⟩) hl

/-- A legal header passes both checks. -/
private theorem startFrame_legal (hb : Between cfg d cur) (hh : h = Header.read b0 b1 tail)
    (hl : h.Legal cfg cur.isSome) :
    startFrame cfg { d with hdr := b0 :: b1 :: tail }
      = if 8 ≤ h.opcode then
          { entered d h with frameIsControl := decide (8 ≤ h.opcode), control := [],
                             remaining := h.len, maskOffset := 0 }
        else
          let d := openMessage
            { entered d h with frameIsControl := decide (8 ≤ h.opcode) } h.rsv1
          if checkSize cfg d.msgCompressed
              ∧ cfg.maxMessage.toNat - min d.msgSize cfg.maxMessage.toNat < h.len then
            d.fail kCloseMessageTooBig "the message is larger than maxMessageSize"
          else startPayload cfg d h.len := by
  obtain ⟨he, hm⟩ := (errors_eq_none_iff cfg b0 b1 tail cur.isSome).mpr (hh ▸ hl)
  rw [startFrame_eq cfg d b0 b1 tail h hh, hb.inMessage, hh, he, hm]

/-- A control frame's header leaves the message in progress alone. -/
theorem startFrame_control (hb : Between cfg d cur) (hh : h = Header.read b0 b1 tail)
    (hl : h.Legal cfg cur.isSome) (hc : h.IsControl) :
    Inside cfg { startFrame cfg { d with hdr := b0 :: b1 :: tail } with inPayload := true }
      h cur := by
  rw [startFrame_legal hb hh hl, if_pos (show 8 ≤ h.opcode from hc)]
  refine ⟨hb.ok, rfl, rfl, rfl, rfl, rfl, fun hm => if_pos hm, rfl, rfl, rfl, fun _ => rfl,
    hb.inMessage, ?_⟩
  intro m hcur
  obtain ⟨h1, h2, h3, h4, h5⟩ := hb.holds m hcur
  exact ⟨h1, h2, h3, h4, h5⟩

/-- The message members once a legal data frame's header has passed the checks:
    they hold the frame's message. -/
private theorem openMessage_holds (hb : Between cfg d cur) (hl : h.Legal cfg cur.isSome)
    (hc : ¬ h.IsControl) :
    (openMessage { entered d h with frameIsControl := decide (8 ≤ h.opcode) } h.rsv1).inMessage
        = true
      ∧ Holds cfg
          (openMessage { entered d h with frameIsControl := decide (8 ≤ h.opcode) } h.rsv1)
          (messageOf cur h) := by
  cases cur with
  | some m =>
      -- a message is in progress, so only a continuation is legal
      have h0 : h.opcode = kOpContinuation := by
        have hop := hl.opcode
        have hst := hl.starts
        have hn : ¬ (h.opcode = kOpText ∨ h.opcode = kOpBinary) :=
          fun ht => Bool.noConfusion (hst ht)
        have hlt : ¬ 8 ≤ h.opcode := hc
        simp only [kOpContinuation, kOpText, kOpBinary, kOpClose, kOpPing, kOpPong]
          at hop hn ⊢
        omega
      rw [openMessage, if_pos (show (entered d h).opcode = kOpContinuation from h0)]
      obtain ⟨h1, h2, h3, h4, h5⟩ := hb.holds m rfl
      exact ⟨hb.inMessage, h1, h2, h3, h4, h5⟩
  | none =>
      have h0 : ¬ (entered d h).opcode = kOpContinuation :=
        fun h0 => Bool.noConfusion (hl.continuation h0)
      rw [openMessage, if_neg h0]
      exact ⟨rfl, rfl, rfl, fun _ => ⟨rfl, Nat.zero_le _⟩, fun _ => rfl, fun _ => ⟨rfl, rfl⟩⟩

private theorem checkSize_iff {m : Message} : checkSize cfg m.compressed = true
    ↔ m.Limited cfg := by
  rw [checkSize, Message.Limited, Bool.and_eq_true, Bool.not_eq_true', Bool.not_eq_true',
    ← Bool.and_eq_true, Bool.not_eq_true]

/-- The size check in terms of the sizes the headers announce. -/
private theorem tooBig_iff {e : WsDecoder} {m : Message} (hm : Holds cfg e m) (len : Nat) :
    (checkSize cfg e.msgCompressed = true
      ∧ cfg.maxMessage.toNat - min e.msgSize cfg.maxMessage.toNat < len)
      ↔ m.Limited cfg ∧ cfg.maxMessage.toNat < m.size + len := by
  rw [hm.compressed, checkSize_iff]
  refine and_congr_right fun hl => ?_
  obtain ⟨h1, h2⟩ := hm.size hl
  rw [h1]
  omega

/-- A data frame that makes its message too long. -/
theorem startFrame_tooBig (hb : Between cfg d cur) (hh : h = Header.read b0 b1 tail)
    (hl : h.Legal cfg cur.isSome) (hc : ¬ h.IsControl)
    (hbig : (messageOf cur h).Limited cfg
      ∧ cfg.maxMessage.toNat < (messageOf cur h).size + h.len) :
    (startFrame cfg { d with hdr := b0 :: b1 :: tail }).failCode = kCloseMessageTooBig := by
  obtain ⟨-, hm⟩ := openMessage_holds hb hl hc
  have hok : (openMessage { entered d h with frameIsControl := decide (8 ≤ h.opcode) }
      h.rsv1).failCode = 0 := by
    rw [openMessage]
    split <;> exact hb.ok
  rw [startFrame_legal hb hh hl, if_neg (show ¬ 8 ≤ h.opcode from hc)]
  simp only [if_pos ((tooBig_iff hm h.len).mpr hbig)]
  rw [fail_failCode, if_pos hok]

/-- The message within the limit gets its room. -/
private theorem startPayload_eq (hreserve : cfg.Reserves) {e : WsDecoder} {m : Message}
    (hm : Holds cfg e m) {len : Nat}
    (hsize : ¬ (m.Limited cfg ∧ cfg.maxMessage.toNat < m.size + len)) :
    startPayload cfg e len
      = { e with msgSize := (e.msgSize + len) % 2 ^ 64, remaining := len, maskOffset := 0 } := by
  rw [startPayload, if_neg]
  rintro ⟨hwhole, -, hrefused⟩
  rw [Bool.and_eq_true, Bool.not_eq_true', Bool.not_eq_true'] at hwhole
  have hlim : m.Limited cfg := ⟨hwhole.1, fun hraw => Bool.noConfusion (hwhole.2.symm.trans hraw.1)⟩
  have hle : m.size + len ≤ cfg.maxMessage.toNat := Nat.not_lt.mp fun hlt => hsize ⟨hlim, hlt⟩
  have hmax := cfg.maxMessage.toNat_lt
  rw [(hm.size hlim).1, Nat.mod_eq_of_lt (by omega), hreserve hwhole _ hle] at hrefused
  exact Bool.noConfusion hrefused

/-- Any other data frame. -/
theorem startFrame_data (hreserve : cfg.Reserves) (hb : Between cfg d cur)
    (hh : h = Header.read b0 b1 tail)
    (hl : h.Legal cfg cur.isSome) (hc : ¬ h.IsControl)
    (hsize : ¬ ((messageOf cur h).Limited cfg
      ∧ cfg.maxMessage.toNat < (messageOf cur h).size + h.len)) :
    Inside cfg { startFrame cfg { d with hdr := b0 :: b1 :: tail } with inPayload := true }
      h (some ((messageOf cur h).extend h.len [])) := by
  obtain ⟨hin, hm⟩ := openMessage_holds hb hl hc
  obtain ⟨e, he⟩ : ∃ e, e = openMessage
      { entered d h with frameIsControl := decide (8 ≤ h.opcode) } h.rsv1 := ⟨_, rfl⟩
  -- opening the message touches only the message members
  have hframe : e.failCode = 0 ∧ e.hdr = [] ∧ e.fin = h.fin ∧ e.opcode = h.opcode
      ∧ e.masked = h.masked ∧ (h.masked = true → e.mask = h.key)
      ∧ e.frameIsControl = decide (8 ≤ h.opcode) := by
    rw [he, openMessage]
    split <;> exact ⟨hb.ok, rfl, rfl, rfl, rfl, fun hm => if_pos hm, rfl⟩
  obtain ⟨f1, f2, f3, f4, f5, f6, f7⟩ := hframe
  rw [← he] at hin hm
  have hstart : startFrame cfg { d with hdr := b0 :: b1 :: tail }
      = { e with msgSize := (e.msgSize + h.len) % 2 ^ 64, remaining := h.len,
                 maskOffset := 0 } := by
    rw [startFrame_legal hb hh hl, if_neg (show ¬ 8 ≤ h.opcode from hc), ← he]
    refine (if_neg fun hbig => hsize ((tooBig_iff hm h.len).mp hbig)).trans ?_
    exact startPayload_eq hreserve hm hsize
  have hext := @holds_extend_nil cfg e _ h.len hm
    (fun hlim => Nat.not_lt.mp fun hlt => hsize ⟨hlim, hlt⟩)
  rw [hstart]
  refine ⟨f1, rfl, f2, f3, f4, f5, f6, rfl, rfl, f7, fun hctl => absurd hctl hc, hin, ?_⟩
  intro m hcur
  obtain rfl := Option.some.inj hcur
  obtain ⟨h1, h2, h3, h4, h5⟩ := hext
  exact ⟨h1, h2, h3, h4, h5⟩

end

end

/-! ## The whole stream -/

open Classical in
/-- `reference` on a frame whose header is all there. -/
theorem reference_some {cur : Option Message} {bytes rest : List UInt8} {h : Header}
    (hp : Header.parse bytes = some (h, rest)) :
    reference cfg cur bytes =
      if ¬ h.Legal cfg cur.isSome then ([], kCloseProtocolError)
      else
        let payload := h.unmask (rest.take h.len)
        if h.IsControl then
          if rest.length < h.len then ([], 0)
          else
            let r := reference cfg cur (rest.drop h.len)
            (.control h.opcode payload :: r.1, r.2)
        else
          let m := (messageOf cur h).extend h.len payload
          let said := rawAtoms cfg cur.isNone m payload
          if m.Limited cfg ∧ cfg.maxMessage.toNat < m.size then ([], kCloseMessageTooBig)
          else if m.IsText cfg ∧ ¬ ValidPrefix m.payload then ([], kCloseInvalidData)
          else if rest.length < h.len then (said, 0)
          else if h.fin = false then
            let r := reference cfg (some m) (rest.drop h.len)
            (said ++ r.1, r.2)
          else if m.IsText cfg ∧ ¬ Valid m.payload then ([], kCloseInvalidData)
          else
            let r := reference cfg none (rest.drop h.len)
            (said ++ endAtoms cfg m ++ r.1, r.2) := by
  rw [reference]
  split
  · next hn => exact absurd (hn.symm.trans hp) (by rintro ⟨⟩)
  · next h' rest' hs =>
      obtain ⟨rfl, rfl⟩ := Prod.mk.inj (Option.some.inj (hs.symm.trans hp))
      rfl

theorem reference_none {cur : Option Message} {bytes : List UInt8}
    (hp : Header.parse bytes = none) : reference cfg cur bytes = ([], 0) := by
  rw [reference]
  split
  · rfl
  · next h' rest' hs => exact absurd (hs.symm.trans hp) (by rintro ⟨⟩)

/-- `r` says what `o` says, and ends with its code. -/
def Says (r : WsDecoder × List Event) (o : List Atom × Nat) : Prop :=
  atoms r.2 = o.1 ∧ r.1.failCode = o.2

section
variable {d : WsDecoder} {h : Header} {cur : Option Message} {b0 b1 : UInt8}
  {tail rest : List UInt8}

/-- The header of a frame and what comes after it. -/
private theorem byteRun_frame (hb : Between cfg d cur)
    (hneed : headerNeed (b0 :: b1 :: tail) = (b0 :: b1 :: tail).length)
    (rest : List UInt8) :
    byteRun cfg d ((b0 :: b1 :: tail) ++ rest)
      = ((byteRun cfg (beginFrame cfg { d with hdr := b0 :: b1 :: tail }).1 rest).1,
          (beginFrame cfg { d with hdr := b0 :: b1 :: tail }).2
            ++ (byteRun cfg (beginFrame cfg { d with hdr := b0 :: b1 :: tail }).1 rest).2) := by
  have hinc : d.hdr.length < headerNeed d.hdr := by
    rw [hb.hdr]
    exact Nat.zero_lt_succ 1
  have happ : d.hdr ++ (b0 :: b1 :: tail) = b0 :: b1 :: tail := by
    rw [hb.hdr]
    rfl
  have hrun := byteRun_header cfg hb.ok hb.outside hinc (b0 :: b1 :: tail)
    (by rw [happ]; exact Nat.le_of_eq hneed.symm)
  have hpend : Pending { d with hdr := b0 :: b1 :: tail } :=
    ⟨hb.ok, hb.outside, Nat.le_of_eq hneed⟩
  rw [happ] at hrun
  rw [byteRun_append, hrun, settle, if_pos hpend]

/-- A header that fails the decoder. -/
private theorem frame_refused (hb : Between cfg d cur)
    (hneed : headerNeed (b0 :: b1 :: tail) = (b0 :: b1 :: tail).length) {code : Nat}
    (hcode : code ≠ 0)
    (hs : (startFrame cfg { d with hdr := b0 :: b1 :: tail }).failCode = code)
    (rest : List UInt8) :
    Says (byteRun cfg d ((b0 :: b1 :: tail) ++ rest)) ([], code) := by
  have hne : (startFrame cfg { d with hdr := b0 :: b1 :: tail }).failCode ≠ 0 := by
    rw [hs]
    exact hcode
  rw [byteRun_frame hb hneed, beginFrame, if_pos hne, byteRun_failed cfg hne]
  exact ⟨rfl, hs⟩

/-- A header that passes, the payload and what comes after it. -/
private theorem frame_accepted (hb : Between cfg d cur)
    (hneed : headerNeed (b0 :: b1 :: tail) = (b0 :: b1 :: tail).length) {cur' : Option Message}
    (hi : Inside cfg
      { startFrame cfg { d with hdr := b0 :: b1 :: tail } with inPayload := true } h cur')
    (rest : List UInt8) :
    byteRun cfg d ((b0 :: b1 :: tail) ++ rest)
      = ((payloadRun cfg
            { startFrame cfg { d with hdr := b0 :: b1 :: tail } with inPayload := true } rest).1,
          startEvents cfg cur.isSome
              { startFrame cfg { d with hdr := b0 :: b1 :: tail } with inPayload := true }
            ++ (payloadRun cfg
                { startFrame cfg { d with hdr := b0 :: b1 :: tail } with inPayload := true }
                rest).2) := by
  have hok : ¬ (startFrame cfg { d with hdr := b0 :: b1 :: tail }).failCode ≠ 0 :=
    not_not.mpr hi.ok
  have hbegin : beginFrame cfg { d with hdr := b0 :: b1 :: tail }
      = ((opened cfg
            { startFrame cfg { d with hdr := b0 :: b1 :: tail } with inPayload := true }).1,
          startEvents cfg cur.isSome
              { startFrame cfg { d with hdr := b0 :: b1 :: tail } with inPayload := true }
            ++ (opened cfg
                { startFrame cfg { d with hdr := b0 :: b1 :: tail } with
                  inPayload := true }).2) := by
    rw [beginFrame, if_neg hok, opened, ← hb.inMessage]
    split
    · next hrem =>
        rw [if_pos hrem, List.append_nil]
    · next hrem =>
        rw [if_neg hrem]
  rw [byteRun_frame hb hneed, hbegin, payloadRun]
  simp only [List.append_assoc]

/-- What is left of the input once the payload of `h` is taken. -/
def AfterFrame (cfg : Config) (h : Header) (rest : List UInt8) : Prop :=
  ∀ d cur, Between cfg d cur →
    Says (byteRun cfg d (rest.drop h.len)) (reference cfg cur (rest.drop h.len))

/-- The payload of a control frame and what comes after it. -/
private theorem control_says {e : WsDecoder} (hi : Inside cfg e h cur) (hc : h.IsControl)
    (hafter : AfterFrame cfg h rest) :
    Says (payloadRun cfg e rest)
      (if rest.length < h.len then ([], 0)
       else
        (.control h.opcode (h.unmask (rest.take h.len))
            :: (reference cfg cur (rest.drop h.len)).1,
          (reference cfg cur (rest.drop h.len)).2)) := by
  have hnf : ¬ ChunkFails cfg e (rest.take e.remaining) := by
    rw [ChunkFails, checksText_control hi hc]
    exact Bool.false_ne_true
  obtain ⟨-, hev⟩ := said_control hi hc false (rest.take e.remaining)
  by_cases hshort : rest.length < h.len
  · obtain ⟨hcode, hatoms⟩ := payloadRun_short hi.ok hi.inside hnf (hi.remaining ▸ hshort)
    rw [if_pos hshort]
    rw [hev] at hatoms
    exact ⟨hatoms, hcode⟩
  · obtain ⟨hsame, hatoms⟩ := payloadRun_full hi.ok hi.inside hi.offset hnf
      (hi.remaining ▸ Nat.not_lt.mp hshort)
    rw [hev, hi.remaining] at hatoms
    rw [hi.remaining] at hsame
    obtain ⟨hbetween, hend⟩ := end_control hi hc (rest.take h.len)
    obtain ⟨ha, hf⟩ := hafter _ _ hbetween
    rw [if_neg hshort]
    refine ⟨?_, hsame.1.trans hf⟩
    rw [hatoms, hend, ha]
    rfl

theorem extend_nil_extend (m : Message) (len : Nat) (bytes : List UInt8) :
    (m.extend len []).extend 0 bytes = m.extend len bytes := by
  simp only [Message.extend, List.append_nil, Nat.add_zero]

open Classical in
/-- The payload of a data frame and what comes after it. -/
private theorem data_says {e : WsDecoder} {m : Message} (wasInMessage : Bool)
    (hi : Inside cfg e h (some (m.extend h.len []))) (hc : ¬ h.IsControl)
    (hafter : AfterFrame cfg h rest) :
    Says ((payloadRun cfg e rest).1,
        startEvents cfg wasInMessage e ++ (payloadRun cfg e rest).2)
      (let m := m.extend h.len (h.unmask (rest.take h.len))
       let said := rawAtoms cfg (!wasInMessage) m (h.unmask (rest.take h.len))
       if m.IsText cfg ∧ ¬ ValidPrefix m.payload then ([], kCloseInvalidData)
       else if rest.length < h.len then (said, 0)
       else if h.fin = false then
         (said ++ (reference cfg (some m) (rest.drop h.len)).1,
           (reference cfg (some m) (rest.drop h.len)).2)
       else if m.IsText cfg ∧ ¬ Valid m.payload then ([], kCloseInvalidData)
       else
         (said ++ endAtoms cfg m ++ (reference cfg none (rest.drop h.len)).1,
           (reference cfg none (rest.drop h.len)).2)) := by
  obtain ⟨bytes, hbytes⟩ : ∃ bytes, bytes = rest.take h.len := ⟨_, rfl⟩
  obtain ⟨m', hm'⟩ : ∃ m', m' = m.extend h.len [] := ⟨_, rfl⟩
  have hext : m'.extend 0 (h.unmask bytes) = m.extend h.len (h.unmask bytes) := by
    rw [hm', extend_nil_extend]
  rw [← hm'] at hi
  have hm := hi.holds m' rfl
  have hsaid := said_eq hi hc hm wasInMessage bytes
  have hfails : ChunkFails cfg e bytes
      ↔ (m'.extend 0 (h.unmask bytes)).IsText cfg
        ∧ ¬ ValidPrefix (m'.extend 0 (h.unmask bytes)).payload := chunkFails_iff hi hc hm bytes
  have htake : rest.take e.remaining = bytes := by
    rw [hi.remaining, hbytes]
  -- a text message makes no callback before it is complete
  have hquiet : m'.IsText cfg → atoms (startEvents cfg wasInMessage e) = [] := by
    intro ht
    rw [startEvents, ht.1.2]
    rfl
  rw [← hbytes]
  simp only [← hext]
  by_cases hf : ChunkFails cfg e bytes
  · obtain ⟨hcode, hatoms⟩ := payloadRun_fails hi.ok hi.inside
      (fun hk => (hm.utf8 ((checksText_iff hi hc hm).mp hk)).2) (htake ▸ hf)
    rw [if_pos (hfails.mp hf)]
    refine ⟨?_, hcode⟩
    rw [atoms_append, hatoms, hquiet (hfails.mp hf).1]
    rfl
  rw [if_neg (fun hbad => hf (hfails.mpr hbad))]
  by_cases hshort : rest.length < h.len
  · obtain ⟨hcode, hatoms⟩ := payloadRun_short hi.ok hi.inside (htake ▸ hf)
      (hi.remaining ▸ hshort)
    rw [if_pos hshort]
    refine ⟨?_, hcode⟩
    rw [htake] at hatoms
    rw [atoms_append, hatoms]
    exact hsaid
  rw [if_neg hshort]
  obtain ⟨hsame, hatoms⟩ := payloadRun_full hi.ok hi.inside hi.offset (htake ▸ hf)
    (hi.remaining ▸ Nat.not_lt.mp hshort)
  rw [htake, hi.remaining] at hsame hatoms
  by_cases hfin : h.fin = false
  · obtain ⟨hbetween, hend⟩ := end_fragment hi hc hfin hf
    obtain ⟨ha, hcode⟩ := hafter _ _ hbetween
    rw [if_pos hfin]
    refine ⟨?_, hsame.1.trans hcode⟩
    rw [atoms_append, hatoms, hend, ha, ← List.append_assoc, hsaid]
    rfl
  rw [if_neg hfin]
  have hfin' : h.fin = true := (Bool.not_eq_false _).mp hfin
  by_cases hbad : (m'.extend 0 (h.unmask bytes)).IsText cfg
      ∧ ¬ Valid (m'.extend 0 (h.unmask bytes)).payload
  · obtain ⟨hcode, hend⟩ := end_invalid hi hc hfin' hf hbad
    have hne : (completeFrame cfg (afterChunk cfg e bytes)).1.failCode ≠ 0 := by
      rw [hcode]
      decide
    rw [if_pos hbad]
    rw [byteRun_failed cfg hne] at hsame hatoms
    refine ⟨?_, hsame.1.trans hcode⟩
    have hsays : rawAtoms cfg (!wasInMessage) m' (h.unmask bytes) = [] := by
      rw [rawAtoms, hbad.1.1.2]
      rfl
    rw [atoms_append, hatoms, hend, ← List.append_assoc, hsaid, hsays]
    rfl
  · obtain ⟨hbetween, hend⟩ := end_message hi hc hfin' hf hbad
    obtain ⟨ha, hcode⟩ := hafter _ _ hbetween
    rw [if_neg hbad]
    refine ⟨?_, hsame.1.trans hcode⟩
    rw [atoms_append, hatoms, hend, ha, ← List.append_assoc, hsaid, List.append_assoc]
    rfl

/-- From between two frames, the bytes that follow say what the reference says. -/
theorem byteRun_reference {cfg : Config} (hreserve : cfg.Reserves) (bytes : List UInt8)
    {d : WsDecoder}
    {cur : Option Message} (hb : Between cfg d cur) :
    Says (byteRun cfg d bytes) (reference cfg cur bytes) := by
  -- by length: `hafter` says it for what follows the frame
  induction hn : bytes.length using Nat.strong_induction_on generalizing bytes d cur with
  | _ n ih =>
      cases hp : Header.parse bytes with
      | none =>
          have hinc : (d.hdr ++ bytes).length < headerNeed (d.hdr ++ bytes) := by
            rw [hb.hdr]
            exact parse_none hp
          have hrun := byteRun_header cfg hb.ok hb.outside
            (by rw [hb.hdr]; exact Nat.zero_lt_succ 1) bytes (Nat.le_of_lt hinc)
          rw [settle_of_incomplete cfg hinc] at hrun
          rw [hrun, reference_none hp]
          exact ⟨rfl, hb.ok⟩
      | some r =>
          obtain ⟨h, rest⟩ := r
          have hafter : AfterFrame cfg h rest := by
            intro d' cur' hb'
            have hlt := Header.parse_length hp
            refine ih (rest.drop h.len).length ?_ _ hb' rfl
            rw [List.length_drop]
            omega
          obtain ⟨b0, b1, tail, hh, hbytes, hneed⟩ := parse_some hp
          rw [reference_some hp, hbytes]
          by_cases hl : h.Legal cfg cur.isSome
          · rw [if_neg (not_not.mpr hl)]
            by_cases hc : h.IsControl
            · have hi := startFrame_control hb hh hl hc
              obtain ⟨hev, -⟩ := said_control hi hc cur.isSome []
              rw [frame_accepted hb hneed hi rest, hev]
              simp only [if_pos hc]
              exact control_says hi hc hafter
            · simp only [if_neg hc]
              by_cases hbig : (messageOf cur h).Limited cfg
                  ∧ cfg.maxMessage.toNat < (messageOf cur h).size + h.len
              · have hs := startFrame_tooBig hb hh hl hc hbig
                have hsays := frame_refused hb hneed (by decide) hs rest
                refine Eq.mpr (congrArg _ ?_) hsays
                exact if_pos hbig
              · have hi := startFrame_data hreserve hb hh hl hc hbig
                have hsays := data_says cur.isSome hi hc hafter
                rw [frame_accepted hb hneed hi rest]
                refine Eq.mpr (congrArg _ ?_) hsays
                refine (if_neg hbig).trans ?_
                rw [Option.not_isSome]
          -- the header is refused before any payload is taken
          · have hs := startFrame_illegal hb hh hl
            rw [if_pos hl]
            exact frame_refused hb hneed (by decide) hs rest

end

/-! ## Runs -/

/-- Every run of a fresh decoder over a byte sequence, however it is cut and
    wherever the sink stops it, makes the callbacks the reference says, raw chunks
    taken apart into bytes, and ends with its code. -/
theorem feedRun_reference {cfg : Config} (hreserve : cfg.Reserves) {bytes : List UInt8}
    {d : WsDecoder} {log : List Event} (h : FeedRun cfg {} [] bytes d log) :
    atoms log = (reference cfg none bytes).1
      ∧ d.failCode = (reference cfg none bytes).2 := by
  obtain ⟨hsame, hatoms⟩ := feedRun_byteRun cfg h Rest.start
  obtain ⟨ha, hc⟩ := byteRun_reference hreserve bytes (between_start cfg)
  exact ⟨hatoms.trans ha, hsame.1.trans hc⟩

end WsFrame

import EcoCompiler.WsFrame

/-! # The decoder one byte at a time

    `byteRun` is the decoder fed single bytes.  `feed` on any input is `byteRun`
    on the part of the input it consumes, whatever the sink answers
    (`feed_byteRun`), so how a sequence is cut into calls of `feed` cannot be
    seen.  Callbacks are compared as atoms: the chunks of raw mode are taken
    apart into their bytes. -/

namespace WsFrame

/-- What the callbacks of a decoder say, raw chunks cut into their bytes. -/
inductive Atom where
  | message (opcode : Nat) (payload : List UInt8)
  | control (opcode : Nat) (payload : List UInt8)
  | dataStart (opcode : Nat) (compressed : Bool)
  | dataByte (b : UInt8)
  | dataEnd
  deriving DecidableEq

/-- The atoms of one callback. -/
def Event.atoms : Event → List Atom
  | .onMessage op payload => [.message op payload]
  | .onControl op payload => [.control op payload]
  | .onDataStart op compressed => [.dataStart op compressed]
  | .onDataChunk data => data.map .dataByte
  | .onDataEnd => [.dataEnd]

/-- The atoms of a sequence of callbacks. -/
def atoms (log : List Event) : List Atom := log.flatMap Event.atoms

@[simp] theorem atoms_nil : atoms [] = [] := rfl

/-- The atoms of two lists of callbacks are those of the first and then of the second. -/
@[simp] theorem atoms_append (a b : List Event) : atoms (a ++ b) = atoms a ++ atoms b :=
  List.flatMap_append

/-! ## Chunks of payload -/

/-- Unmasking goes on where it stopped. -/
theorem applyMask_append (a b : List UInt8) (mask : Mask) (off : Nat) :
    applyMask (a ++ b) mask off = applyMask a mask off ++ applyMask b mask (off + a.length) := by
  induction a generalizing off with
  | nil => rfl
  | cons x a ih =>
      have hlen : off + 1 + a.length = off + (x :: a).length := by
        rw [List.length_cons]
        omega
      rw [List.cons_append, applyMask, applyMask, ih, hlen]
      rfl

/-- Only the offset modulo 4 matters, so the `u64` offset may wrap. -/
theorem applyMask_congr (a : List UInt8) (mask : Mask) {off off' : Nat}
    (h : off % 4 = off' % 4) : applyMask a mask off = applyMask a mask off' := by
  induction a generalizing off off' with
  | nil => rfl
  | cons x a ih =>
      have hidx : (⟨off % 4, Nat.mod_lt _ (Nat.succ_pos 3)⟩ : Fin 4)
          = ⟨off' % 4, Nat.mod_lt _ (Nat.succ_pos 3)⟩ := Fin.ext h
      rw [applyMask, applyMask, hidx, ih (show (off + 1) % 4 = (off' + 1) % 4 by omega)]

@[simp] theorem applyMask_length (a : List UInt8) (mask : Mask) (off : Nat) :
    (applyMask a mask off).length = a.length := by
  induction a generalizing off with
  | nil => rfl
  | cons x a ih => rw [applyMask, List.length_cons, ih, List.length_cons]

/-- A validator that has failed stays as it is. -/
theorem Utf8Validator.feed_failed {v : Utf8Validator} (h : v.failed = true)
    (p : List UInt8) : v.feed p = v := by
  cases p with
  | nil => rfl
  | cons b p => rw [Utf8Validator.feed, if_pos h]

/-- The validator may be fed in any pieces. -/
theorem Utf8Validator.feed_append (v : Utf8Validator) (p q : List UInt8) :
    v.feed (p ++ q) = (v.feed p).feed q := by
  induction p generalizing v with
  | nil => rfl
  | cons b p ih =>
      rw [List.cons_append, Utf8Validator.feed, Utf8Validator.feed]
      by_cases h : v.failed = true
      · rw [if_pos h, if_pos h, Utf8Validator.feed_failed h]
      · rw [if_neg h, if_neg h, ih]

/-! ## One byte -/

/-- A chunk of payload and, when it is the last one, the end of the frame. -/
def payloadStep (cfg : Config) (d : WsDecoder) (chunk : List UInt8) :
    WsDecoder × List Event :=
  let r := takeChunk cfg d chunk
  if r.1.failCode ≠ 0 ∨ 0 < r.1.remaining then r
  else
    let r' := completeFrame cfg r.1
    (r'.1, r.2 ++ r'.2)

/-- A complete header: the start of the frame and, without payload, its end. -/
def beginFrame (cfg : Config) (d : WsDecoder) : WsDecoder × List Event :=
  let d' := startFrame cfg d
  if d'.failCode ≠ 0 then (d', [])
  else
    let d' := { d' with inPayload := true }
    let evs := startEvents cfg d.inMessage d'
    if 0 < d'.remaining then (d', evs)
    else
      let r := completeFrame cfg d'
      (r.1, evs ++ r.2)

/-- The header is complete and its frame not yet started. -/
def Pending (d : WsDecoder) : Prop :=
  d.failCode = 0 ∧ d.inPayload = false ∧ headerNeed d.hdr ≤ d.hdr.length

instance (d : WsDecoder) : Decidable (Pending d) := inferInstanceAs (Decidable (_ ∧ _))

/-- Starts the frame of a complete header. -/
def settle (cfg : Config) (d : WsDecoder) : WsDecoder × List Event :=
  if Pending d then beginFrame cfg d else (d, [])

/-- The decoder on one byte. -/
def byteStep (cfg : Config) (d : WsDecoder) (b : UInt8) : WsDecoder × List Event :=
  if d.failCode ≠ 0 then (d, [])
  else if d.inPayload then payloadStep cfg d [b]
  else settle cfg { d with hdr := d.hdr ++ [b] }

/-- The decoder on a sequence of bytes, one at a time. -/
def byteRun (cfg : Config) (d : WsDecoder) : List UInt8 → WsDecoder × List Event
  | [] => (d, [])
  | b :: rest =>
      let r := byteStep cfg d b
      let r' := byteRun cfg r.1 rest
      (r'.1, r.2 ++ r'.2)

/-- Bytes taken one after the other may be split anywhere. -/
theorem byteRun_append (cfg : Config) (d : WsDecoder) (a b : List UInt8) :
    byteRun cfg d (a ++ b)
      = ((byteRun cfg (byteRun cfg d a).1 b).1,
          (byteRun cfg d a).2 ++ (byteRun cfg (byteRun cfg d a).1 b).2) := by
  induction a generalizing d with
  | nil => rfl
  | cons x a ih =>
      rw [List.cons_append]
      show ((byteRun cfg (byteStep cfg d x).1 (a ++ b)).1, _) = _
      rw [ih]
      show (_, (byteStep cfg d x).2 ++ _) = (_, ((byteStep cfg d x).2 ++ _) ++ _)
      rw [List.append_assoc]
      rfl

/-- A decoder that has failed takes nothing more. -/
theorem byteRun_failed (cfg : Config) {d : WsDecoder} (h : d.failCode ≠ 0)
    (bytes : List UInt8) : byteRun cfg d bytes = (d, []) := by
  induction bytes with
  | nil => rfl
  | cons b rest ih =>
      have hstep : byteStep cfg d b = (d, []) := by
        rw [byteStep, if_pos h]
      show ((byteRun cfg (byteStep cfg d b).1 rest).1,
        (byteStep cfg d b).2 ++ (byteRun cfg (byteStep cfg d b).1 rest).2) = _
      rw [hstep]
      show ((byteRun cfg d rest).1, [] ++ (byteRun cfg d rest).2) = _
      rw [ih]
      rfl

/-- Two decoders no later input can tell apart: equal, or failed with one code. -/
def Same (d d' : WsDecoder) : Prop :=
  d.failCode = d'.failCode ∧ (d.failCode = 0 → d = d')

theorem Same.refl (d : WsDecoder) : Same d d := ⟨rfl, fun _ => rfl⟩

theorem Same.trans {a b c : WsDecoder} (h : Same a b) (h' : Same b c) : Same a c :=
  ⟨h.1.trans h'.1, fun h0 => (h.2 h0).trans (h'.2 (h.1 ▸ h0))⟩

/-- Decoders that failed with one code cannot be told apart. -/
theorem Same.of_failed {a b : WsDecoder} (h : a.failCode = b.failCode)
    (hf : a.failCode ≠ 0) : Same a b := ⟨h, fun h0 => absurd h0 hf⟩

/-- Decoders that are the same run the same. -/
theorem byteRun_same (cfg : Config) {d d' : WsDecoder} (h : Same d d')
    (bytes : List UInt8) :
    Same (byteRun cfg d bytes).1 (byteRun cfg d' bytes).1
      ∧ (byteRun cfg d bytes).2 = (byteRun cfg d' bytes).2 := by
  by_cases h0 : d.failCode = 0
  · rw [h.2 h0]
    exact ⟨Same.refl _, rfl⟩
  · rw [byteRun_failed cfg h0, byteRun_failed cfg (h.1 ▸ h0)]
    exact ⟨h, rfl⟩

/-- The first failure is the one that stays. -/
theorem fail_failCode (d : WsDecoder) (code : Nat) (text : String) :
    (d.fail code text).failCode = if d.failCode = 0 then code else d.failCode := by
  rw [WsDecoder.fail]
  split <;> rfl

/-! ## Splitting a chunk -/

private theorem advance_advance (d : WsDecoder) (j k : Nat) :
    (d.advance j).advance k = d.advance (j + k) := by
  have h1 : d.remaining - j - k = d.remaining - (j + k) := by omega
  have h2 : ((d.maskOffset + j) % 2 ^ 64 + k) % 2 ^ 64 = (d.maskOffset + (j + k)) % 2 ^ 64 := by
    omega
  simp only [WsDecoder.advance, h1, h2]

/-- Advancing and storing touch different members. -/
private theorem store_advance (cfg : Config) (d : WsDecoder) (k : Nat)
    (bytes : List UInt8) : (d.advance k).store cfg bytes = (d.store cfg bytes).advance k :=
  rfl

/-- Storing in two pieces is storing at once. -/
private theorem store_store (cfg : Config) (d : WsDecoder) (a b : List UInt8) :
    (d.store cfg a).store cfg b = d.store cfg (a ++ b) := by
  have hk : keepsMessage cfg (d.store cfg a) = keepsMessage cfg d := rfl
  have ht : checksText cfg (d.store cfg a) = checksText cfg d := rfl
  rw [WsDecoder.store, hk, ht]
  simp only [WsDecoder.store]
  congr 1
  · by_cases h : d.frameIsControl = true
    · simp only [if_pos h, List.append_assoc]
    · simp only [if_neg h]
  · by_cases h : keepsMessage cfg d = true
    · simp only [if_pos h, List.append_assoc]
    · simp only [if_neg h]
  · by_cases h : checksText cfg d = true
    · simp only [if_pos h, Utf8Validator.feed_append]
    · simp only [if_neg h]

/-- The mask continues from one chunk to the next. -/
theorem unmasked_append (cfg : Config) (d : WsDecoder) (x a b : List UInt8) :
    unmasked d (a ++ b)
      = unmasked d a ++ unmasked ((d.store cfg x).advance a.length) b := by
  have hoff : (d.maskOffset + a.length) % 4 = (d.maskOffset + a.length) % 2 ^ 64 % 4 := by
    omega
  show (if d.masked = true then _ else _) = (if d.masked = true then _ else _)
    ++ (if d.masked = true then applyMask b d.mask ((d.maskOffset + a.length) % 2 ^ 64)
      else b)
  by_cases h : d.masked = true
  · rw [if_pos h, if_pos h, if_pos h, applyMask_append, applyMask_congr b d.mask hoff]
  · rw [if_neg h, if_neg h, if_neg h]

/-- A chunk fails the decoder exactly when it makes the validator fail. -/
def ChunkFails (cfg : Config) (d : WsDecoder) (chunk : List UInt8) : Prop :=
  (checksText cfg d && (d.utf8.feed (unmasked d chunk)).failed) = true

/-- The callbacks of a chunk. -/
def chunkEvents (cfg : Config) (d : WsDecoder) (chunk : List UInt8) : List Event :=
  if !d.frameIsControl && !cfg.discard && cfg.raw then [.onDataChunk (unmasked d chunk)]
  else []

/-- Whether stored bytes fail the validator depends on the validator and the bytes alone. -/
private theorem store_utf8_failed (cfg : Config) (d : WsDecoder) (bytes : List UInt8) :
    (checksText cfg d && (d.store cfg bytes).utf8.failed)
      = (checksText cfg d && (d.utf8.feed bytes).failed) := by
  cases h : checksText cfg d with
  | false => rfl
  | true =>
      show (if checksText cfg d = true then d.utf8.feed bytes else d.utf8).failed = _
      rw [if_pos h]
      rfl

/-- A chunk that does not fail is stored and reported. -/
theorem takeChunk_ok (cfg : Config) {d : WsDecoder} {chunk : List UInt8}
    (h : ¬ ChunkFails cfg d chunk) :
    takeChunk cfg d chunk
      = ((d.store cfg (unmasked d chunk)).advance chunk.length,
          chunkEvents cfg d chunk) := by
  rw [ChunkFails, ← store_utf8_failed] at h
  exact if_neg h

/-- A chunk that fails reports nothing and sets the code for invalid data. -/
theorem takeChunk_fails (cfg : Config) {d : WsDecoder} {chunk : List UInt8}
    (h0 : d.failCode = 0) (h : ChunkFails cfg d chunk) :
    (takeChunk cfg d chunk).1.failCode = kCloseInvalidData
      ∧ (takeChunk cfg d chunk).2 = [] := by
  rw [ChunkFails, ← store_utf8_failed] at h
  have heq : takeChunk cfg d chunk
      = ((d.store cfg (unmasked d chunk)).fail kCloseInvalidData
          "invalid UTF-8 in a text message", []) := if_pos h
  have hs : (d.store cfg (unmasked d chunk)).failCode = 0 := h0
  rw [heq]
  refine ⟨?_, rfl⟩
  rw [fail_failCode, if_pos hs]

/-- The decoder after a chunk that does not fail it. -/
def afterChunk (cfg : Config) (d : WsDecoder) (chunk : List UInt8) : WsDecoder :=
  (d.store cfg (unmasked d chunk)).advance chunk.length

@[simp] theorem afterChunk_failCode (cfg : Config) (d : WsDecoder) (chunk : List UInt8) :
    (afterChunk cfg d chunk).failCode = d.failCode := rfl

@[simp] theorem afterChunk_remaining (cfg : Config) (d : WsDecoder) (chunk : List UInt8) :
    (afterChunk cfg d chunk).remaining = d.remaining - chunk.length := rfl

@[simp] theorem afterChunk_inPayload (cfg : Config) (d : WsDecoder) (chunk : List UInt8) :
    (afterChunk cfg d chunk).inPayload = d.inPayload := rfl

@[simp] theorem afterChunk_hdr (cfg : Config) (d : WsDecoder) (chunk : List UInt8) :
    (afterChunk cfg d chunk).hdr = d.hdr := rfl

/-- Two chunks after each other leave what the joined chunk leaves. -/
theorem afterChunk_append (cfg : Config) (d : WsDecoder) (a b : List UInt8) :
    afterChunk cfg d (a ++ b) = afterChunk cfg (afterChunk cfg d a) b := by
  unfold afterChunk
  rw [store_advance, advance_advance, store_store, List.length_append,
    unmasked_append cfg d (unmasked d a)]

/-- They report the same atoms too. -/
theorem chunkEvents_append (cfg : Config) (d : WsDecoder) (a b : List UInt8) :
    atoms (chunkEvents cfg d (a ++ b))
      = atoms (chunkEvents cfg d a) ++ atoms (chunkEvents cfg (afterChunk cfg d a) b) := by
  unfold chunkEvents
  rw [show (afterChunk cfg d a).frameIsControl = d.frameIsControl from rfl]
  by_cases h : (!d.frameIsControl && !cfg.discard && cfg.raw) = true
  · rw [if_pos h, if_pos h, if_pos h, unmasked_append cfg d (unmasked d a)]
    simp [atoms, Event.atoms, afterChunk]
  · rw [if_neg h, if_neg h, if_neg h]
    rfl

/-- The validator keeps a failure through the rest of a chunk. -/
theorem chunkFails_append_left (cfg : Config) {d : WsDecoder} {a : List UInt8}
    (b : List UInt8) (h : ChunkFails cfg d a) : ChunkFails cfg d (a ++ b) := by
  obtain ⟨h1, h2⟩ := (Bool.and_eq_true _ _).mp h
  unfold ChunkFails
  rw [unmasked_append cfg d [], Utf8Validator.feed_append, Utf8Validator.feed_failed h2, h1,
    h2]
  rfl

/-- When the first of two chunks passed, the joined chunk fails exactly when the second does. -/
theorem chunkFails_append_right (cfg : Config) {d : WsDecoder} {a : List UInt8}
    (b : List UInt8) :
    ChunkFails cfg (afterChunk cfg d a) b ↔ ChunkFails cfg d (a ++ b) := by
  unfold ChunkFails
  rw [unmasked_append cfg d (unmasked d a), Utf8Validator.feed_append,
    show checksText cfg (afterChunk cfg d a) = checksText cfg d from rfl]
  cases h : checksText cfg d with
  | false => exact Iff.rfl
  | true =>
      rw [show (afterChunk cfg d a).utf8 = d.utf8.feed (unmasked d a) from if_pos h]
      rfl

/-- Only Whole mode validates, and it makes no callback for a chunk. -/
theorem chunkEvents_of_fails {cfg : Config} {d : WsDecoder} {chunk : List UInt8}
    (h : ChunkFails cfg d chunk) (other : List UInt8) : chunkEvents cfg d other = [] := by
  obtain ⟨h1, -⟩ := (Bool.and_eq_true _ _).mp h
  obtain ⟨h2, -⟩ := (Bool.and_eq_true _ _).mp h1
  obtain ⟨-, h3⟩ := (Bool.and_eq_true _ _).mp h2
  refine if_neg ?_
  intro hraw
  obtain ⟨-, hr⟩ := (Bool.and_eq_true _ _).mp hraw
  rw [hr] at h3
  cases h3

/-! ## A chunk is its bytes -/

/-- A payload that fails reports nothing and sets the code for invalid data. -/
theorem payloadStep_fails {cfg : Config} {d : WsDecoder} {chunk : List UInt8}
    (h0 : d.failCode = 0) (h : ChunkFails cfg d chunk) :
    (payloadStep cfg d chunk).1.failCode = kCloseInvalidData
      ∧ (payloadStep cfg d chunk).2 = [] := by
  obtain ⟨hc, he⟩ := takeChunk_fails cfg h0 h
  have hne : (takeChunk cfg d chunk).1.failCode ≠ 0 := by
    rw [hc]
    decide
  rw [show payloadStep cfg d chunk = takeChunk cfg d chunk from if_pos (Or.inl hne)]
  exact ⟨hc, he⟩

/-- A chunk that leaves payload to come. -/
theorem payloadStep_more {cfg : Config} {d : WsDecoder} {chunk : List UInt8}
    (h : ¬ ChunkFails cfg d chunk) (hlen : chunk.length < d.remaining) :
    payloadStep cfg d chunk = (afterChunk cfg d chunk, chunkEvents cfg d chunk) := by
  have hrem : 0 < (afterChunk cfg d chunk).remaining := by
    rw [afterChunk_remaining]
    omega
  have heq : takeChunk cfg d chunk = (afterChunk cfg d chunk, chunkEvents cfg d chunk) :=
    takeChunk_ok cfg h
  rw [payloadStep, heq]
  exact if_pos (Or.inr hrem)

/-- The last chunk of a frame. -/
theorem payloadStep_last {cfg : Config} {d : WsDecoder} {chunk : List UInt8}
    (h0 : d.failCode = 0) (h : ¬ ChunkFails cfg d chunk) (hlen : d.remaining ≤ chunk.length) :
    payloadStep cfg d chunk
      = ((completeFrame cfg (afterChunk cfg d chunk)).1,
          chunkEvents cfg d chunk ++ (completeFrame cfg (afterChunk cfg d chunk)).2) := by
  have hno : ¬ ((afterChunk cfg d chunk).failCode ≠ 0
      ∨ 0 < (afterChunk cfg d chunk).remaining) := by
    rw [afterChunk_failCode, afterChunk_remaining]
    omega
  have heq : takeChunk cfg d chunk = (afterChunk cfg d chunk, chunkEvents cfg d chunk) :=
    takeChunk_ok cfg h
  rw [payloadStep, heq]
  exact if_neg hno

/-- Inside a payload one byte is a chunk of one. -/
theorem byteStep_payload {cfg : Config} {d : WsDecoder} (h0 : d.failCode = 0)
    (hin : d.inPayload = true) (b : UInt8) : byteStep cfg d b = payloadStep cfg d [b] := by
  rw [byteStep, if_neg (not_not.mpr h0), if_pos hin]

/-- What two ways of taking input agree on: the decoder they leave, as far as
    later input can tell, and the atoms of their callbacks. -/
def Agree (r r' : WsDecoder × List Event) : Prop :=
  Same r.1 r'.1 ∧ atoms r.2 = atoms r'.2

theorem Agree.refl (r : WsDecoder × List Event) : Agree r r := ⟨Same.refl _, rfl⟩

/-- A chunk taken at once leaves what its bytes leave one after the other. -/
theorem payloadStep_byteRun (cfg : Config) {d : WsDecoder} {chunk : List UInt8}
    (h0 : d.failCode = 0) (hin : d.inPayload = true) (hne : chunk ≠ [])
    (hlen : chunk.length ≤ d.remaining) :
    Agree (payloadStep cfg d chunk) (byteRun cfg d chunk) := by
  -- by the first byte: what the rest does after it is the induction hypothesis
  induction chunk generalizing d with
  | nil => exact absurd rfl hne
  | cons b rest ih =>
      have hrun : byteRun cfg d (b :: rest)
          = ((byteRun cfg (payloadStep cfg d [b]).1 rest).1,
              (payloadStep cfg d [b]).2 ++ (byteRun cfg (payloadStep cfg d [b]).1 rest).2) := by
        rw [← byteStep_payload h0 hin]
        rfl
      by_cases hrest : rest = []
      · subst hrest
        rw [hrun]
        refine ⟨Same.refl _, ?_⟩
        show _ = atoms ((payloadStep cfg d [b]).2 ++ [])
        rw [List.append_nil]
      have hpos : 0 < rest.length := List.length_pos_of_ne_nil hrest
      rw [List.length_cons] at hlen
      by_cases hf : ChunkFails cfg d [b]
      · -- the first byte fails both
        obtain ⟨hc, he⟩ := payloadStep_fails h0 hf
        obtain ⟨hc', he'⟩ := payloadStep_fails h0
          (show ChunkFails cfg d (b :: rest) from chunkFails_append_left cfg rest hf)
        have hne' : (payloadStep cfg d [b]).1.failCode ≠ 0 := by
          rw [hc]
          decide
        rw [hrun, byteRun_failed cfg hne', he]
        refine ⟨Same.of_failed (hc'.trans hc.symm) (by rw [hc']; decide), ?_⟩
        rw [he']
        rfl
      · have hone : payloadStep cfg d [b] = (afterChunk cfg d [b], chunkEvents cfg d [b]) :=
          payloadStep_more hf (show 1 < d.remaining by omega)
        have hrem : (afterChunk cfg d [b]).remaining = d.remaining - 1 := rfl
        obtain ⟨hs, ha⟩ := @ih (afterChunk cfg d [b]) h0 hin hrest (by omega)
        have hrun' : byteRun cfg d (b :: rest)
            = ((byteRun cfg (afterChunk cfg d [b]) rest).1,
                chunkEvents cfg d [b] ++ (byteRun cfg (afterChunk cfg d [b]) rest).2) := by
          rw [hrun, hone]
        have happ : b :: rest = [b] ++ rest := rfl
        rw [hrun']
        by_cases hf' : ChunkFails cfg (afterChunk cfg d [b]) rest
        · -- a later byte fails both
          have hfa : ChunkFails cfg d (b :: rest) := (chunkFails_append_right cfg rest).mp hf'
          obtain ⟨hc, he⟩ := payloadStep_fails h0 hfa
          obtain ⟨hc', he'⟩ := payloadStep_fails (show (afterChunk cfg d [b]).failCode = 0
            from h0) hf'
          refine ⟨Same.trans (Same.of_failed (hc.trans hc'.symm) (by rw [hc]; decide)) hs, ?_⟩
          show _ = atoms (_ ++ _)
          rw [he, atoms_append, ← ha, he', chunkEvents_of_fails hfa]
          rfl
        · have hfa : ¬ ChunkFails cfg d (b :: rest) :=
            fun h => hf' ((chunkFails_append_right cfg rest).mpr h)
          have hev := chunkEvents_append cfg d [b] rest
          -- the chunk ends the frame, or leaves some of it
          by_cases hlast : d.remaining ≤ rest.length + 1
          · rw [payloadStep_last (show (afterChunk cfg d [b]).failCode = 0 from h0) hf'
              (by omega)] at hs ha
            rw [payloadStep_last h0 hfa hlast, happ, afterChunk_append]
            refine ⟨hs, ?_⟩
            show atoms (_ ++ _) = atoms (_ ++ _)
            rw [atoms_append, atoms_append, hev, List.append_assoc, ← ha]
            exact congrArg _ (atoms_append _ _).symm
          · rw [payloadStep_more hf' (by omega)] at hs ha
            rw [payloadStep_more hfa (by rw [List.length_cons]; omega), happ,
              afterChunk_append]
            refine ⟨hs, ?_⟩
            show atoms _ = atoms (_ ++ _)
            rw [hev, atoms_append, ← ha]

/-! ## The header byte by byte -/

/-- From the second byte on the header's length is known. -/
theorem headerNeed_append_of_two {hdr : List UInt8} (h : 2 ≤ hdr.length) (x : List UInt8) :
    headerNeed (hdr ++ x) = headerNeed hdr := by
  match hdr, h with
  | _ :: _ :: _, _ => rfl

theorem two_le_headerNeed (hdr : List UInt8) : 2 ≤ headerNeed hdr := by
  match hdr with
  | [] => exact Nat.le_refl 2
  | [_] => exact Nat.le_refl 2
  | _ :: _ :: _ =>
      rw [headerNeed, Nat.add_assoc]
      exact Nat.le_add_right 2 _

theorem headerNeed_of_short {hdr : List UInt8} (h : hdr.length < 2) : headerNeed hdr = 2 := by
  match hdr, h with
  | [], _ => rfl
  | [_], _ => rfl

/-- A header that needs more bytes needs no fewer once some of them are in. -/
theorem headerNeed_mono (hdr x : List UInt8) : headerNeed hdr ≤ headerNeed (hdr ++ x) := by
  by_cases h : 2 ≤ hdr.length
  · exact (headerNeed_append_of_two h x).ge
  · rw [headerNeed_of_short (show hdr.length < 2 by omega)]
    exact two_le_headerNeed _

/-- A proper prefix of a header is not a header. -/
theorem prefix_incomplete {hdr x : List UInt8} (hx : x ≠ [])
    (h : (hdr ++ x).length ≤ headerNeed (hdr ++ x)) : hdr.length < headerNeed hdr := by
  have hpos : 0 < x.length := List.length_pos_of_ne_nil hx
  rw [List.length_append] at h
  by_cases h2 : 2 ≤ hdr.length
  · rw [headerNeed_append_of_two h2] at h
    omega
  · have := two_le_headerNeed hdr
    omega

/-- An incomplete header starts no frame. -/
theorem settle_of_incomplete (cfg : Config) {d : WsDecoder}
    (h : d.hdr.length < headerNeed d.hdr) : settle cfg d = (d, []) :=
  if_neg fun hp => absurd hp.2.2 (Nat.not_le.mpr h)

theorem settle_of_inPayload (cfg : Config) {d : WsDecoder} (h : d.inPayload = true) :
    settle cfg d = (d, []) :=
  if_neg fun hp => Bool.false_ne_true (hp.2.1.symm.trans h)

theorem settle_of_failed (cfg : Config) {d : WsDecoder} (h : d.failCode ≠ 0) :
    settle cfg d = (d, []) := if_neg fun hp => h hp.1

/-- Header bytes only pile up until the last of them starts the frame. -/
theorem byteRun_header (cfg : Config) {d : WsDecoder} (h0 : d.failCode = 0)
    (hin : d.inPayload = false) (hinc : d.hdr.length < headerNeed d.hdr)
    (chunk : List UInt8)
    (h : (d.hdr ++ chunk).length ≤ headerNeed (d.hdr ++ chunk)) :
    byteRun cfg d chunk = settle cfg { d with hdr := d.hdr ++ chunk } := by
  induction chunk using List.reverseRecOn with
  | nil =>
      rw [List.append_nil]
      exact (settle_of_incomplete cfg hinc).symm
  | append_singleton xs b ih =>
      rw [← List.append_assoc] at h ⊢
      have hxs : (d.hdr ++ xs).length < headerNeed (d.hdr ++ xs) :=
        prefix_incomplete (List.cons_ne_nil b []) h
      have hrun : byteRun cfg d xs = ({ d with hdr := d.hdr ++ xs }, []) := by
        rw [ih (Nat.le_of_lt hxs)]
        exact settle_of_incomplete cfg hxs
      have hstep : byteStep cfg { d with hdr := d.hdr ++ xs } b
          = settle cfg { d with hdr := d.hdr ++ xs ++ [b] } := by
        rw [byteStep, if_neg (not_not.mpr h0)]
        exact if_neg (by rw [hin]; exact Bool.false_ne_true)
      rw [byteRun_append, hrun]
      show ((byteStep cfg _ b).1, [] ++ ((byteStep cfg _ b).2 ++ [])) = _
      rw [hstep, List.append_nil]
      rfl

end WsFrame

import EcoCompiler.WsFrameReferenceProofs

/-! # The decoder reads back what the serializer writes

    A stream of control frames and of data messages cut into fragments, control
    frames between them, each frame built by `encodeFrame`.

    * `parse_encodeFrame`: the header of such a frame, and the bytes after it;
    * `reference_items`: the reference reads the stream back;
    * `wsDecoder_reads_frames`: so does every run of the decoder, which on any
      bytes says what the reference says. -/

namespace WsFrame

open Utf8Spec

/-! ## One frame -/

/-- The header `encodeFrame` writes. -/
def frameOf (fin : Bool) (opcode len : Nat) (mask : Option Mask) : Header :=
  { fin := fin, rsv1 := false, rsv2 := false, rsv3 := false, opcode := opcode,
    masked := mask.isSome, len := len, key := mask.getD fun _ => 0 }

/-- The payload bytes `encodeFrame` writes. -/
def onWire (payload : List UInt8) (mask : Option Mask) : List UInt8 :=
  match mask with
  | some m => applyMask payload m 0
  | none => payload

theorem onWire_length (payload : List UInt8) (mask : Option Mask) :
    (onWire payload mask).length = payload.length := by
  cases mask with
  | none => rfl
  | some m => exact applyMask_length payload m 0

/-- Masking twice restores the bytes. -/
theorem applyMask_applyMask (payload : List UInt8) (mask : Mask) (off : Nat) :
    applyMask (applyMask payload mask off) mask off = payload := by
  induction payload generalizing off with
  | nil => rfl
  | cons b rest ih => rw [applyMask, applyMask, ih, UInt8.xor_assoc, UInt8.xor_self, UInt8.xor_zero]

theorem unmask_onWire (fin : Bool) (opcode len : Nat) (payload : List UInt8)
    (mask : Option Mask) :
    (frameOf fin opcode len mask).unmask (onWire payload mask) = payload := by
  cases mask with
  | none => rfl
  | some m =>
      have hu : (frameOf fin opcode len (some m)).unmask (onWire payload (some m))
          = applyMask (applyMask payload m 0) m 0 := by
        rw [applyMask_eq_mapIdx (applyMask payload m 0)]
        simp only [Nat.zero_add]
        rfl
      rw [hu, applyMask_applyMask]

private theorem toNat_ofNat_lt {n : Nat} (h : n < 256) : (UInt8.ofNat n).toNat = n := by
  rw [UInt8.toNat_ofNat']
  exact Nat.mod_eq_of_lt h

/-- The first byte of a frame. -/
private theorem byte0 (fin : Bool) {opcode : Nat} (hop : opcode < 16) :
    (UInt8.ofNat ((if fin then 0x80 else 0) ||| (if false then 0x40 else 0)
      ||| (opcode &&& 0x0F))).toNat = (if fin then 128 else 0) + opcode := by
  have h : ∀ fin : Bool, ∀ op < 16, ((if fin then 0x80 else 0) ||| (if false then 0x40 else 0)
      ||| (op &&& 0x0F)) = (if fin then 128 else 0) + op := by decide
  rw [h fin opcode hop]
  refine toNat_ofNat_lt ?_
  split <;> omega

/-- The second byte of a frame: the mask bit and seven bits of length. -/
private theorem byte1 (mask : Option Mask) {n : Nat} (hn : n < 128) :
    (UInt8.ofNat ((if mask.isSome then 0x80 else 0) ||| n)).toNat
      = (if mask.isSome then 128 else 0) + n := by
  have h : ((if mask.isSome then 0x80 else 0) ||| n) = (if mask.isSome then 128 else 0) + n := by
    split
    · exact (Nat.shiftLeft_add_eq_or_of_lt (i := 7) hn 1).symm
    · rw [Nat.zero_or, Nat.zero_add]
  rw [h]
  refine toNat_ofNat_lt ?_
  split <;> omega

private theorem and_FF (n : Nat) : n &&& 0xFF = n % 256 := Nat.and_two_pow_sub_one_eq_mod n 8

/-- The mask key's four bytes, where there is one, are read back. -/
private theorem key_read (mask : Option Mask) (ext : List UInt8) :
    (fun i : Fin 4 => ((ext ++ (mask.map maskBytes).getD []).drop ext.length).getD i 0)
      = mask.getD fun _ => 0 := by
  rw [List.drop_left]
  cases mask with
  | none => rfl
  | some m =>
      funext i
      match i with
      | 0 => rfl
      | 1 => rfl
      | 2 => rfl
      | 3 => rfl

/-- A header with `ext` as its extended length reads back. -/
private theorem read_frame (fin : Bool) {opcode : Nat} (hop : opcode < 16) (mask : Option Mask)
    (len7 len : Nat) (ext : List UInt8) (h7 : len7 < 128)
    (hext : ext.length = extendedBytes len7)
    (hlen : len = if extendedBytes len7 = 0 then len7 else bigEndianValue ext)
    (b0 b1 : UInt8) (hb0 : b0.toNat = (if fin then 128 else 0) + opcode)
    (hb1 : b1.toNat = (if mask.isSome then 128 else 0) + len7) :
    Header.read b0 b1 (ext ++ (mask.map maskBytes).getD []) = frameOf fin opcode len mask
      ∧ headerTail b1 = (ext ++ (mask.map maskBytes).getD []).length := by
  -- the two bytes split back into their bits
  have hmod : b1.toNat % 128 = len7 := by
    rw [hb1]
    split <;> omega
  have hmasked : 128 ≤ b1.toNat ↔ mask.isSome = true := by
    rw [hb1]
    split
    · next h => exact ⟨fun _ => h, fun _ => by omega⟩
    · next h => exact ⟨fun hle => by omega, fun hs => absurd hs h⟩
  have hfin : 128 ≤ b0.toNat ↔ fin = true := by
    rw [hb0]
    cases fin with
    | true => simp
    | false => simp; omega
  constructor
  · have hkey := key_read mask ext
    rw [hext] at hkey
    rw [Header.read, hmod, hkey, ← hext, List.take_left, hext, ← hlen]
    have e1 : b0.toNat / 64 % 2 = 0 := by
      rw [hb0]
      split <;> omega
    have e2 : b0.toNat / 32 % 2 = 0 := by
      rw [hb0]
      split <;> omega
    have e3 : b0.toNat / 16 % 2 = 0 := by
      rw [hb0]
      split <;> omega
    have e4 : b0.toNat % 16 = opcode := by
      rw [hb0]
      split <;> omega
    simp only [e1, e2, e3, e4, hfin, hmasked, frameOf, Bool.decide_eq_true,
      decide_eq_false (show ¬ (0 = 1) by decide)]
  · rw [headerTail, hmod, List.length_append, hext]
    congr 1
    cases mask with
    | none => exact if_neg (fun h => Bool.noConfusion (hmasked.mp h))
    | some m => exact if_pos (hmasked.mpr rfl)

/-- A header followed by any bytes parses. -/
private theorem parse_append {b0 b1 : UInt8} {tail : List UInt8}
    (h : headerTail b1 = tail.length) (rest : List UInt8) :
    Header.parse (b0 :: b1 :: tail ++ rest) = some (Header.read b0 b1 tail, rest) := by
  show Header.parse (b0 :: b1 :: (tail ++ rest)) = _
  rw [Header.parse, h, List.take_left, List.drop_left, if_neg]
  rw [List.length_append]
  omega

private theorem bigEndianValue_two (n : Nat) (h : n ≤ 0xFFFF) :
    bigEndianValue [UInt8.ofNat ((n >>> 8) &&& 0xFF), UInt8.ofNat (n &&& 0xFF)] = n := by
  show Nat.ofDigits 256 [_, _] = n
  rw [and_FF, and_FF, toNat_ofNat_lt (Nat.mod_lt _ (by decide)),
    toNat_ofNat_lt (Nat.mod_lt _ (by decide)), Nat.shiftRight_eq_div_pow]
  simp only [Nat.ofDigits_cons, Nat.ofDigits_nil]
  omega

private theorem bigEndianValue_eight (n : Nat) (h : n < 2 ^ 64) :
    bigEndianValue ([7, 6, 5, 4, 3, 2, 1, 0].map
      (fun i => UInt8.ofNat ((n >>> (8 * i)) &&& 0xFF))) = n := by
  have hb : ∀ i, (UInt8.ofNat ((n >>> (8 * i)) &&& 0xFF)).toNat = n / 2 ^ (8 * i) % 256 := by
    intro i
    rw [and_FF, toNat_ofNat_lt (Nat.mod_lt _ (by decide)), Nat.shiftRight_eq_div_pow]
  show Nat.ofDigits 256 [_, _, _, _, _, _, _, _] = n
  simp only [hb, Nat.ofDigits_cons, Nat.ofDigits_nil]
  omega

/-- The header of an encoded frame is read back, whatever follows the frame. -/
theorem parse_encodeFrame (fin : Bool) {opcode : Nat} (hop : opcode < 16)
    {payload : List UInt8} (hlen : payload.length < 2 ^ 64) (mask : Option Mask)
    (rest : List UInt8) :
    Header.parse (encodeFrame fin opcode payload mask ++ rest)
      = some (frameOf fin opcode payload.length mask, onWire payload mask ++ rest) := by
  obtain ⟨n, hn⟩ : ∃ n, n = payload.length := ⟨_, rfl⟩
  have henc : encodeFrame fin opcode payload mask
      = frameHeader fin opcode false n mask ++ onWire payload mask := by
    rw [hn]
    rfl
  rw [henc, List.append_assoc, ← hn, frameHeader]
  rw [← hn] at hlen
  by_cases h1 : n < 126
  · have hz : extendedBytes n = 0 := by
      rw [extendedBytes, if_neg (by omega), if_neg (by omega)]
    obtain ⟨hread, htail⟩ := read_frame fin hop mask n n [] (by omega) hz.symm
      (if_pos hz).symm _ _ (byte0 fin hop) (byte1 mask (by omega))
    simp only [if_pos h1]
    rw [← hread]
    exact parse_append htail _
  by_cases h2 : n ≤ 0xFFFF
  · obtain ⟨hread, htail⟩ := read_frame fin hop mask 126 n
      [UInt8.ofNat ((n >>> 8) &&& 0xFF), UInt8.ofNat (n &&& 0xFF)] (by decide) rfl
      (bigEndianValue_two n h2).symm _ _ (byte0 fin hop) (byte1 mask (by decide))
    simp only [if_neg h1, if_pos h2]
    rw [← hread]
    exact parse_append htail _
  · obtain ⟨hread, htail⟩ := read_frame fin hop mask 127 n
      ([7, 6, 5, 4, 3, 2, 1, 0].map (fun i => UInt8.ofNat ((n >>> (8 * i)) &&& 0xFF)))
      (by decide) rfl (bigEndianValue_eight n hlen).symm _ _ (byte0 fin hop)
      (byte1 mask (by decide))
    simp only [if_neg h1, if_neg h2]
    rw [← hread]
    exact parse_append htail _

/-! ## Streams -/

/-- A control frame to be sent, under a mask key if the sender masks. -/
structure ControlFrame where
  opcode : Nat
  payload : List UInt8
  mask : Option Mask
  known : opcode = kOpClose ∨ opcode = kOpPing ∨ opcode = kOpPong
  short : payload.length ≤ kMaxControlPayload

/-- A fragment of a data message to be sent; a `std::string` holds its payload. -/
structure Fragment where
  payload : List UInt8
  mask : Option Mask
  fits : payload.length < 2 ^ 63

/-- A data message cut into fragments, the further ones each after some control
    frames. -/
structure SentMessage where
  opcode : Nat
  first : Fragment
  further : List (List ControlFrame × Fragment)
  known : opcode = kOpText ∨ opcode = kOpBinary

/-- What a sender sends. -/
inductive Item where
  | control (c : ControlFrame)
  | message (m : SentMessage)

/-- The bytes of a control frame. -/
def ControlFrame.wire (c : ControlFrame) : List UInt8 :=
  encodeFrame true c.opcode c.payload c.mask

/-- The bytes of the further fragments of a message. -/
def furtherWire : List (List ControlFrame × Fragment) → List UInt8
  | [] => []
  | (cs, f) :: more =>
      cs.flatMap ControlFrame.wire
        ++ (encodeFrame more.isEmpty kOpContinuation f.payload f.mask ++ furtherWire more)

/-- The bytes of a message. -/
def SentMessage.wire (m : SentMessage) : List UInt8 :=
  encodeFrame m.further.isEmpty m.opcode m.first.payload m.first.mask ++ furtherWire m.further

/-- The bytes of an item. -/
def Item.wire : Item → List UInt8
  | .control c => c.wire
  | .message m => m.wire

/-- The payload of the further fragments. -/
def furtherPayload (further : List (List ControlFrame × Fragment)) : List UInt8 :=
  further.flatMap fun p => p.2.payload

/-- The payload of a message. -/
def SentMessage.payload (m : SentMessage) : List UInt8 :=
  m.first.payload ++ furtherPayload m.further

/-- The message a receiver has once all its frames are in. -/
def SentMessage.received (m : SentMessage) : Message :=
  { opcode := m.opcode, compressed := false, size := m.payload.length, payload := m.payload }

/-- The atom of a control frame. -/
def ControlFrame.atom (c : ControlFrame) : Atom := .control c.opcode c.payload

/-- The atoms of a message's further fragments and the control frames among them. -/
def furtherAtoms (cfg : Config) (m : SentMessage)
    (further : List (List ControlFrame × Fragment)) : List Atom :=
  further.flatMap fun p =>
    p.1.map ControlFrame.atom ++ rawAtoms cfg false m.received p.2.payload

/-- What the receiver is told of an item: each control frame, and of a message what
    its mode tells. -/
def Item.atoms (cfg : Config) : Item → List Atom
  | .control c => [c.atom]
  | .message m =>
      rawAtoms cfg true m.received m.first.payload ++ furtherAtoms cfg m m.further
        ++ endAtoms cfg m.received

/-- A control frame of a sender that masks as the receiver expects. -/
def ControlFrame.Sendable (cfg : Config) (c : ControlFrame) : Prop :=
  c.mask.isSome = cfg.expectMasked

/-- The further fragments of a message, and the control frames among them, are
    masked as the receiver expects. -/
def FurtherSendable (cfg : Config) (further : List (List ControlFrame × Fragment)) : Prop :=
  ∀ p ∈ further, (∀ c ∈ p.1, c.Sendable cfg) ∧ p.2.mask.isSome = cfg.expectMasked

/-- A message the receiver accepts: masked as it expects, no longer than its limit,
    and UTF-8 if it is text. -/
structure SentMessage.Sendable (cfg : Config) (m : SentMessage) : Prop where
  first : m.first.mask.isSome = cfg.expectMasked
  further : FurtherSendable cfg m.further
  size : m.payload.length ≤ cfg.maxMessage.toNat
  text : m.opcode = kOpText → Valid m.payload

/-- An item the receiver accepts. -/
def Item.Sendable (cfg : Config) : Item → Prop
  | .control c => c.Sendable cfg
  | .message m => m.Sendable cfg

section
variable {cfg : Config}

/-- The reference reads a control frame back, inside a message or not. -/
theorem reference_control {c : ControlFrame} (hs : c.Sendable cfg) (cur : Option Message)
    (rest : List UInt8) :
    reference cfg cur (c.wire ++ rest)
      = (c.atom :: (reference cfg cur rest).1, (reference cfg cur rest).2) := by
  have hk := c.known
  have hlen := c.short
  simp only [kOpClose, kOpPing, kOpPong, kMaxControlPayload] at hk hlen
  have hp := parse_encodeFrame true (show c.opcode < 16 by omega)
    (show c.payload.length < 2 ^ 64 by omega) c.mask rest
  have hl : (frameOf true c.opcode c.payload.length c.mask).Legal cfg cur.isSome := by
    refine ⟨?_, ⟨rfl, rfl⟩, (by rintro ⟨⟩), Or.inr (Or.inr (Or.inr c.known)), hs,
      fun _ => ⟨rfl, c.short⟩, ?_, ?_⟩
    · show c.payload.length < 2 ^ 63
      omega
    · intro (h0 : c.opcode = 0)
      omega
    · intro (h0 : c.opcode = 1 ∨ c.opcode = 2)
      omega
  have hc : (frameOf true c.opcode c.payload.length c.mask).IsControl := by
    show 8 ≤ c.opcode
    omega
  have hw := onWire_length c.payload c.mask
  have hle : ¬ (onWire c.payload c.mask ++ rest).length
      < (frameOf true c.opcode c.payload.length c.mask).len := by
    show ¬ _ < c.payload.length
    rw [List.length_append]
    omega
  have htake : (onWire c.payload c.mask ++ rest).take
      (frameOf true c.opcode c.payload.length c.mask).len = onWire c.payload c.mask := by
    show List.take c.payload.length _ = _
    rw [← hw, List.take_left]
  have hdrop : (onWire c.payload c.mask ++ rest).drop
      (frameOf true c.opcode c.payload.length c.mask).len = rest := by
    show List.drop c.payload.length _ = _
    rw [← hw, List.drop_left]
  rw [ControlFrame.wire, reference_some hp, if_neg (not_not.mpr hl)]
  simp only [if_pos hc, if_neg hle, htake, hdrop, unmask_onWire]
  rfl

theorem reference_controls {cs : List ControlFrame} (hs : ∀ c ∈ cs, c.Sendable cfg)
    (cur : Option Message) (rest : List UInt8) :
    reference cfg cur (cs.flatMap ControlFrame.wire ++ rest)
      = (cs.map ControlFrame.atom ++ (reference cfg cur rest).1,
          (reference cfg cur rest).2) := by
  induction cs with
  | nil => rfl
  | cons c cs ih =>
      rw [List.flatMap_cons, List.append_assoc,
        reference_control (hs c List.mem_cons_self),
        ih (fun c' hc' => hs c' (List.mem_cons_of_mem c hc'))]
      rfl

open Classical in
/-- `reference` on a legal data frame whose payload is all there. -/
private theorem reference_legal_data {cur : Option Message} {bytes rest payload after : List UInt8}
    {h : Header} {m : Message} (hp : Header.parse bytes = some (h, rest))
    (hl : h.Legal cfg cur.isSome) (hc : ¬ h.IsControl) (hle : ¬ rest.length < h.len)
    (hpay : h.unmask (rest.take h.len) = payload) (hafter : rest.drop h.len = after)
    (hm : (messageOf cur h).extend h.len payload = m) :
    reference cfg cur bytes
      = if m.Limited cfg ∧ cfg.maxMessage.toNat < m.size then ([], kCloseMessageTooBig)
        else if m.IsText cfg ∧ ¬ ValidPrefix m.payload then ([], kCloseInvalidData)
        else if h.fin = false then
          (rawAtoms cfg cur.isNone m payload ++ (reference cfg (some m) after).1,
            (reference cfg (some m) after).2)
        else if m.IsText cfg ∧ ¬ Valid m.payload then ([], kCloseInvalidData)
        else
          (rawAtoms cfg cur.isNone m payload ++ endAtoms cfg m ++ (reference cfg none after).1,
            (reference cfg none after).2) := by
  subst hpay hafter hm
  rw [reference_some hp, if_neg (not_not.mpr hl)]
  simp only [if_neg hc, if_neg hle]

/-- The reference reads a data frame back: the first of its message or, with a
    message in progress, a continuation. -/
theorem reference_data (cur : Option Message) {opcode : Nat} {f : Fragment} {fin : Bool}
    (hop : if cur.isSome then opcode = kOpContinuation
      else opcode = kOpText ∨ opcode = kOpBinary)
    (hmask : f.mask.isSome = cfg.expectMasked) {m : Message}
    (hm : m = (messageOf cur (frameOf fin opcode f.payload.length f.mask)).extend
      f.payload.length f.payload)
    (hsize : m.size ≤ cfg.maxMessage.toNat)
    (htext : m.IsText cfg → if fin then Valid m.payload else ValidPrefix m.payload)
    (rest : List UInt8) :
    reference cfg cur (encodeFrame fin opcode f.payload f.mask ++ rest)
      = if fin = false then
          (rawAtoms cfg cur.isNone m f.payload ++ (reference cfg (some m) rest).1,
            (reference cfg (some m) rest).2)
        else
          (rawAtoms cfg cur.isNone m f.payload ++ endAtoms cfg m ++ (reference cfg none rest).1,
            (reference cfg none rest).2) := by
  have hlt : opcode < 8 := by
    split at hop
    · rw [hop]
      decide
    · rcases hop with h | h <;> rw [h] <;> decide
  have hfits := f.fits
  have hp := parse_encodeFrame fin (show opcode < 16 by omega)
    (show f.payload.length < 2 ^ 64 by omega) f.mask rest
  -- the frame is legal where it stands in the message
  have hl : (frameOf fin opcode f.payload.length f.mask).Legal cfg cur.isSome := by
    refine ⟨f.fits, ⟨rfl, rfl⟩, (by rintro ⟨⟩), ?_, hmask, ?_, ?_, ?_⟩
    · split at hop
      · exact Or.inl hop
      · exact Or.inr (hop.imp_right Or.inl)
    · intro (h8 : 8 ≤ opcode)
      omega
    · intro (h0 : opcode = kOpContinuation)
      split at hop
      · next hs => exact hs
      · rcases hop with h | h <;> exact absurd (h.symm.trans h0) (by decide)
    · intro (h0 : opcode = kOpText ∨ opcode = kOpBinary)
      split at hop
      · rcases h0 with h | h <;> exact absurd (h.symm.trans hop) (by decide)
      · next hs => exact Bool.eq_false_iff.mpr hs
  have hc : ¬ (frameOf fin opcode f.payload.length f.mask).IsControl := by
    show ¬ 8 ≤ opcode
    omega
  have hw := onWire_length f.payload f.mask
  have hle : ¬ (onWire f.payload f.mask ++ rest).length
      < (frameOf fin opcode f.payload.length f.mask).len := by
    show ¬ _ < f.payload.length
    rw [List.length_append]
    omega
  have htake : (onWire f.payload f.mask ++ rest).take
      (frameOf fin opcode f.payload.length f.mask).len = onWire f.payload f.mask := by
    show List.take f.payload.length _ = _
    rw [← hw, List.take_left]
  have hdrop : (onWire f.payload f.mask ++ rest).drop
      (frameOf fin opcode f.payload.length f.mask).len = rest := by
    show List.drop f.payload.length _ = _
    rw [← hw, List.drop_left]
  have hsmall : ¬ (m.Limited cfg ∧ cfg.maxMessage.toNat < m.size) := by
    rintro ⟨-, hbig⟩
    omega
  -- a text that is valid so far raises no error; at its end it is valid whole
  have hprefix : ¬ (m.IsText cfg ∧ ¬ ValidPrefix m.payload) := by
    rintro ⟨ht, hbad⟩
    have hv := htext ht
    split at hv
    · exact hbad ⟨[], (List.append_nil m.payload).symm ▸ hv⟩
    · exact hbad hv
  have hpay : (frameOf fin opcode f.payload.length f.mask).unmask
      ((onWire f.payload f.mask ++ rest).take (frameOf fin opcode f.payload.length f.mask).len)
      = f.payload := by
    rw [htake, unmask_onWire]
  rw [reference_legal_data hp hl hc hle hpay hdrop hm.symm, if_neg hsmall, if_neg hprefix]
  cases fin with
  | false => rfl
  | true =>
      have hvalid : ¬ (m.IsText cfg ∧ ¬ Valid m.payload) := by
        rintro ⟨ht, hbad⟩
        exact hbad (htext ht)
      have hft : ¬ (frameOf true opcode f.payload.length f.mask).fin = false :=
        fun h => Bool.noConfusion h
      rw [if_neg hft, if_neg hvalid, if_neg (show ¬ (true = false) from (by rintro ⟨⟩))]

/-! ## Messages and streams -/

/-- What raw mode says of a frame depends on its message's opcode only. -/
theorem rawAtoms_congr {m m' : Message} (ho : m.opcode = m'.opcode)
    (hc : m.compressed = m'.compressed) (opens : Bool) (bytes : List UInt8) :
    rawAtoms cfg opens m bytes = rawAtoms cfg opens m' bytes := by
  rw [rawAtoms, rawAtoms, ho, hc]

/-- A message as far as its frames have come: `got` is their payload. -/
def SentMessage.sofar (m : SentMessage) (got : List UInt8) : Message :=
  { opcode := m.opcode, compressed := false, size := got.length, payload := got }

/-- The further fragments of a message, from the point where `got` is in. -/
theorem reference_further {m : SentMessage} (hs : m.Sendable cfg)
    {further : List (List ControlFrame × Fragment)} (hne : further ≠ [])
    (hsend : FurtherSendable cfg further) {got : List UInt8}
    (hgot : got ++ furtherPayload further = m.payload) (rest : List UInt8) :
    reference cfg (some (m.sofar got)) (furtherWire further ++ rest)
      = (furtherAtoms cfg m further ++ endAtoms cfg m.received ++ (reference cfg none rest).1,
          (reference cfg none rest).2) := by
  -- by the fragments left; `got` is what has come in before them
  induction further generalizing got with
  | nil => exact absurd rfl hne
  | cons p more ih =>
      obtain ⟨cs, f⟩ := p
      obtain ⟨hcs, hmask⟩ := hsend (cs, f) List.mem_cons_self
      have hsend' : FurtherSendable cfg more :=
        fun p hp => hsend p (List.mem_cons_of_mem _ hp)
      have hgot' : (got ++ f.payload) ++ furtherPayload more = m.payload := by
        rw [List.append_assoc]
        exact hgot
      have hm : m.sofar (got ++ f.payload)
          = (messageOf (some (m.sofar got))
              (frameOf more.isEmpty kOpContinuation f.payload.length f.mask)).extend
              f.payload.length f.payload := by
        simp only [SentMessage.sofar, messageOf, Message.extend, Option.getD_some,
          List.length_append]
      have hle : (got ++ f.payload).length ≤ m.payload.length := by
        rw [← hgot']
        exact (List.sublist_append_left _ _).length_le
      -- what has come in is a prefix of a valid text, and at the last fragment the text itself
      have htext : (m.sofar (got ++ f.payload)).IsText cfg →
          if more.isEmpty then Valid (got ++ f.payload) else ValidPrefix (got ++ f.payload) := by
        rintro ⟨-, ht⟩
        have hv := hs.text ht
        rw [← hgot'] at hv
        cases more with
        | nil =>
            rw [furtherPayload, List.flatMap_nil, List.append_nil] at hv
            exact hv
        | cons p' more' => exact ⟨_, hv⟩
      have hsaid : rawAtoms cfg false (m.sofar (got ++ f.payload)) f.payload
          = rawAtoms cfg false m.received f.payload := rawAtoms_congr rfl rfl _ _
      rw [furtherWire, List.append_assoc, List.append_assoc, reference_controls hcs,
        reference_data (some (m.sofar got)) rfl hmask hm (Nat.le_trans hle hs.size) htext]
      cases more with
      | nil =>
          have hall : m.sofar (got ++ f.payload) = m.received := by
            rw [furtherPayload, List.flatMap_nil, List.append_nil] at hgot'
            rw [hgot']
            rfl
          rw [if_neg (show ¬ (List.isEmpty [] = false) from (by rintro ⟨⟩)), furtherAtoms, hall]
          simp [furtherWire]
      | cons p' more' =>
          rw [if_pos (show List.isEmpty (p' :: more') = false from rfl),
            ih (List.cons_ne_nil p' more') hsend' hgot']
          simp only [furtherAtoms, List.flatMap_cons, hsaid, Option.isNone_some, List.append_assoc]

/-- The reference reads a message back. -/
theorem reference_message {m : SentMessage} (hs : m.Sendable cfg) (rest : List UInt8) :
    reference cfg none (m.wire ++ rest)
      = ((Item.message m).atoms cfg ++ (reference cfg none rest).1,
          (reference cfg none rest).2) := by
  have hpayload : m.first.payload ++ furtherPayload m.further = m.payload := rfl
  have hm : m.sofar m.first.payload
      = (messageOf none (frameOf m.further.isEmpty m.opcode m.first.payload.length
          m.first.mask)).extend m.first.payload.length m.first.payload := by
    simp only [SentMessage.sofar, messageOf, Message.extend, Option.getD_none, Nat.zero_add,
      List.nil_append]
    rfl
  have hle : m.first.payload.length ≤ m.payload.length := by
    rw [← hpayload, List.length_append]
    omega
  have htext : (m.sofar m.first.payload).IsText cfg →
      if m.further.isEmpty then Valid m.first.payload else ValidPrefix m.first.payload := by
    rintro ⟨-, ht⟩
    have hv := hs.text ht
    rw [← hpayload] at hv
    cases hf : m.further with
    | nil =>
        rw [hf, furtherPayload, List.flatMap_nil, List.append_nil] at hv
        exact hv
    | cons p more => exact ⟨_, hv⟩
  have hsaid : rawAtoms cfg true (m.sofar m.first.payload) m.first.payload
      = rawAtoms cfg true m.received m.first.payload := rawAtoms_congr rfl rfl _ _
  rw [SentMessage.wire, List.append_assoc,
    reference_data none m.known hs.first hm (Nat.le_trans hle hs.size) htext]
  cases hf : m.further with
  | nil =>
      have hall : m.sofar m.first.payload = m.received := by
        rw [hf, furtherPayload, List.flatMap_nil, List.append_nil] at hpayload
        rw [hpayload]
        rfl
      rw [if_neg (show ¬ (List.isEmpty [] = false) from (by rintro ⟨⟩)), hall, Item.atoms, hf]
      simp [furtherWire, furtherAtoms]
  | cons p more =>
      have hfurther := reference_further hs (hf ▸ List.cons_ne_nil p more) hs.further hpayload rest
      rw [if_pos (show List.isEmpty (p :: more) = false from rfl), ← hf, hfurther, Item.atoms]
      simp only [hsaid, Option.isNone_none, List.append_assoc]

/-- The reference reads a whole stream back, and finds no violation. -/
theorem reference_items {items : List Item} (hs : ∀ i ∈ items, i.Sendable cfg) :
    reference cfg none (items.flatMap Item.wire) = (items.flatMap (Item.atoms cfg), 0) := by
  induction items with
  | nil => exact reference_none rfl
  | cons i items ih =>
      have hi := hs i List.mem_cons_self
      have hrest := ih fun j hj => hs j (List.mem_cons_of_mem i hj)
      rw [List.flatMap_cons, List.flatMap_cons]
      cases i with
      | control c =>
          rw [show (Item.control c).wire = c.wire from rfl, reference_control hi, hrest]
          rfl
      | message m =>
          rw [show (Item.message m).wire = m.wire from rfl, reference_message hi, hrest]

end

/-! ## The decoder -/

/-- How a fresh decoder takes `bytes`: a run that has begun comes to its end within as many calls
    as bytes are left, whatever the pieces and the sinks of these calls, and every run that is at
    its end has told `said`, with the decoder's code `code`. -/
structure Tells (cfg : Config) (bytes : List UInt8) (said : List Atom) (code : Nat) : Prop where
  ends : ∀ d log rest, FeedCalls cfg {} [] bytes d log rest → ∀ size sink,
    FeedRun cfg {} [] bytes (feedAll cfg size sink rest.length d log rest).1
      (feedAll cfg size sink rest.length d log rest).2
  said : ∀ d log, FeedRun cfg {} [] bytes d log → atoms log = said ∧ d.failCode = code

/-- A run that has begun comes to its end. -/
theorem feedCalls_ends {cfg : Config} {bytes rest : List UInt8} {d : WsDecoder} {log : List Event}
    (h : FeedCalls cfg {} [] bytes d log rest) (size : Nat → Nat) (sink : Nat → Sink) :
    FeedRun cfg {} [] bytes (feedAll cfg size sink rest.length d log rest).1
      (feedAll cfg size sink rest.length d log rest).2 :=
  h.feedRun cfg (feedAll_run cfg size sink (h.rest cfg Rest.start) log (Nat.le_refl _))

/-- The decoder is the frame grammar.  A byte sequence, whatever the pieces it is fed in and
    wherever its sink stops it, is taken to its end, with the callbacks of the reference (raw
    chunks joined) and its code; and the frames of any items the receiver accepts tell exactly
    these items, with no failure.  Memory is there for every message within the limit. -/
theorem wsDecoder_reads_frames (cfg : Config) (hreserve : cfg.Reserves) :
    (∀ bytes, Tells cfg bytes (reference cfg none bytes).1 (reference cfg none bytes).2)
    ∧ ∀ items : List Item, (∀ i ∈ items, i.Sendable cfg) →
        Tells cfg (items.flatMap Item.wire) (items.flatMap (Item.atoms cfg)) 0 := by
  have htells : ∀ bytes,
      Tells cfg bytes (reference cfg none bytes).1 (reference cfg none bytes).2 :=
    fun bytes => ⟨fun d log rest h size sink => feedCalls_ends h size sink,
      fun d log h => feedRun_reference hreserve h⟩
  refine ⟨htells, fun items hs => ?_⟩
  have h := htells (items.flatMap Item.wire)
  rw [reference_items hs] at h
  exact h

/-- A server in Whole mode, for messages of at most sixteen bytes. -/
def smallServer : Config :=
  { expectMasked := true, maxMessage := 16, raw := false, allowRsv1 := false, discard := false
    reserve := fun n => decide (n < 2 ^ 63) }

theorem smallServer_reserves : smallServer.Reserves := by
  intro _ n hn
  have hle : n ≤ 16 := hn
  exact decide_eq_true (by omega)

/-- The text "\u00E9" cut between its two bytes, with a Ping between the halves. -/
def splitText : SentMessage :=
  let key : Mask := fun i => UInt8.ofNat (i.val + 1)
  { opcode := kOpText
    first := { payload := [0xC3], mask := some key, fits := by decide }
    further :=
      [([{ opcode := kOpPing, payload := [0x21], mask := some key, known := by decide,
           short := by decide }],
        { payload := [0xA9], mask := some key, fits := by decide })]
    known := by decide }

theorem splitText_sendable : (Item.message splitText).Sendable smallServer := by
  refine ⟨rfl, ?_, by decide, fun _ => ⟨[0xE9], ?_, rfl⟩⟩
  · intro p hp
    obtain rfl := List.mem_singleton.mp hp
    refine ⟨?_, rfl⟩
    intro c hc
    obtain rfl := List.mem_singleton.mp hc
    rfl
  · intro n hn
    obtain rfl := List.mem_singleton.mp hn
    exact Or.inl (by decide)

/-- Fed a byte at a time to a sink that stops after every callback. -/
theorem wsDecoder_reads_splitText :
    ∃ d log, FeedRun smallServer {} [] splitText.wire d log
      ∧ atoms log = [.control kOpPing [0x21], .message kOpText [0xC3, 0xA9]]
      ∧ d.failCode = 0 ∧ d.failCode = (reference smallServer none splitText.wire).2 := by
  obtain ⟨href, hitems⟩ := wsDecoder_reads_frames smallServer smallServer_reserves
  have hs : ∀ i ∈ [Item.message splitText], i.Sendable smallServer := by
    intro i hi
    obtain rfl := List.mem_singleton.mp hi
    exact splitText_sendable
  have htells := hitems _ hs
  rw [List.flatMap_singleton, List.flatMap_singleton] at htells
  have hrun := htells.ends {} [] splitText.wire (.none _ _ _) (fun _ => 0) fun _ _ => true
  obtain ⟨ha, hc⟩ := htells.said _ _ hrun
  exact ⟨_, _, hrun, ha, hc, ((href splitText.wire).said _ _ hrun).2⟩

end WsFrame

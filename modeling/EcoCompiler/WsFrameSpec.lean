import EcoCompiler.WsFrameByteProofs
import EcoCompiler.WsFrameUtf8Proofs

/-! # What a WebSocket stream says

    The reference the decoder is compared with: it has the whole byte sequence at
    hand and reads it frame by frame, a header by arithmetic, its rules as
    propositions, a payload in one piece, text as a sequence of scalar values.  It
    keeps no state inside a frame. -/

namespace WsFrame

open Utf8Spec

/-! ## Headers -/

/-- The header of a frame. -/
structure Header where
  fin : Bool
  rsv1 : Bool
  rsv2 : Bool
  rsv3 : Bool
  opcode : Nat
  masked : Bool
  len : Nat
  key : Mask

/-- The number of bytes of the extended length. -/
def extendedBytes (len7 : Nat) : Nat :=
  if len7 = 126 then 2 else if len7 = 127 then 8 else 0

/-- The value of big-endian bytes. -/
def bigEndianValue (bytes : List UInt8) : Nat :=
  Nat.ofDigits 256 (bytes.reverse.map UInt8.toNat)

/-- The number of bytes of a header after its first two. -/
def headerTail (b1 : UInt8) : Nat :=
  extendedBytes (b1.toNat % 128) + if 128 ≤ b1.toNat then 4 else 0

/-- The header with the given first two bytes; `tail` holds the others. -/
def Header.read (b0 b1 : UInt8) (tail : List UInt8) : Header :=
  let ext := extendedBytes (b1.toNat % 128)
  { fin := decide (128 ≤ b0.toNat)
    rsv1 := decide (b0.toNat / 64 % 2 = 1)
    rsv2 := decide (b0.toNat / 32 % 2 = 1)
    rsv3 := decide (b0.toNat / 16 % 2 = 1)
    opcode := b0.toNat % 16
    masked := decide (128 ≤ b1.toNat)
    len := if ext = 0 then b1.toNat % 128 else bigEndianValue (tail.take ext)
    key := fun i => (tail.drop ext).getD i 0 }

/-- Reads a header: it and the bytes after it, if it is there in full. -/
def Header.parse : List UInt8 → Option (Header × List UInt8)
  | b0 :: b1 :: rest =>
      if rest.length < headerTail b1 then none
      else
        some (Header.read b0 b1 (rest.take (headerTail b1)), rest.drop (headerTail b1))
  | _ => none

theorem Header.parse_length {bytes rest : List UInt8} {h : Header}
    (hp : Header.parse bytes = some (h, rest)) : rest.length < bytes.length := by
  match bytes, hp with
  | b0 :: b1 :: tail, hp =>
      rw [Header.parse] at hp
      by_cases hshort : tail.length < headerTail b1
      · rw [if_pos hshort] at hp
        cases hp
      · rw [if_neg hshort] at hp
        obtain ⟨-, rfl⟩ := Prod.mk.inj (Option.some.inj hp)
        rw [List.length_drop, List.length_cons, List.length_cons]
        omega

/-- A control frame. -/
def Header.IsControl (h : Header) : Prop := 8 ≤ h.opcode

instance (h : Header) : Decidable h.IsControl := inferInstanceAs (Decidable (_ ≤ _))

/-- The rules a header obeys, `inMessage` being whether a data message is in
    progress; breaking one is a protocol error. -/
structure Header.Legal (cfg : Config) (inMessage : Bool) (h : Header) : Prop where
  length : h.len < 2 ^ 63
  reserved : h.rsv2 = false ∧ h.rsv3 = false
  compressed : h.rsv1 = true →
    cfg.allowRsv1 = true ∧ (h.opcode = kOpText ∨ h.opcode = kOpBinary)
  opcode : h.opcode = kOpContinuation ∨ h.opcode = kOpText ∨ h.opcode = kOpBinary ∨
    h.opcode = kOpClose ∨ h.opcode = kOpPing ∨ h.opcode = kOpPong
  direction : h.masked = cfg.expectMasked
  control : h.IsControl → h.fin = true ∧ h.len ≤ kMaxControlPayload
  continuation : h.opcode = kOpContinuation → inMessage = true
  starts : h.opcode = kOpText ∨ h.opcode = kOpBinary → inMessage = false

theorem mod_four_lt (i : ℕ) : i % 4 < 4 := Nat.mod_lt i (Nat.succ_pos 3)

/-- The payload bytes of a frame as they were before masking. -/
def Header.unmask (h : Header) (bytes : List UInt8) : List UInt8 :=
  if h.masked then bytes.mapIdx fun i b => b ^^^ h.key ⟨i % 4, mod_four_lt i⟩
  else bytes

/-! ## Messages -/

/-- A data message as far as its frames have come. -/
structure Message where
  opcode : Nat
  compressed : Bool
  size : Nat
  payload : List UInt8

/-- The message a data frame belongs to: the one in progress, or a new one. -/
def messageOf (cur : Option Message) (h : Header) : Message :=
  cur.getD { opcode := h.opcode, compressed := h.rsv1, size := 0, payload := [] }

/-- The message with one more frame of `len` bytes, of which `payload` is there. -/
def Message.extend (m : Message) (len : Nat) (payload : List UInt8) : Message :=
  { m with size := m.size + len, payload := m.payload ++ payload }

/-- The size limit holds for what the receiver can measure. -/
def Message.Limited (cfg : Config) (m : Message) : Prop :=
  cfg.discard = false ∧ ¬ (cfg.raw = true ∧ m.compressed = true)

/-- Whole mode: messages are put together. -/
def Config.Whole (cfg : Config) : Prop := cfg.discard = false ∧ cfg.raw = false

/-- There is memory for every message within the limit. -/
def Config.Reserves (cfg : Config) : Prop :=
  cfg.Whole → ∀ n ≤ cfg.maxMessage.toNat, cfg.reserve n = true

/-- The payload must be UTF-8. -/
def Message.IsText (cfg : Config) (m : Message) : Prop := cfg.Whole ∧ m.opcode = kOpText

instance (cfg : Config) (m : Message) : Decidable (m.Limited cfg) :=
  inferInstanceAs (Decidable (_ ∧ _))

instance (cfg : Config) : Decidable cfg.Whole := inferInstanceAs (Decidable (_ ∧ _))

instance (cfg : Config) (m : Message) : Decidable (m.IsText cfg) :=
  inferInstanceAs (Decidable (_ ∧ _))

/-- What raw mode says of a data frame's bytes; `opens` if it starts its message. -/
def rawAtoms (cfg : Config) (opens : Bool) (m : Message) (bytes : List UInt8) : List Atom :=
  if cfg.raw = true ∧ cfg.discard = false then
    (if opens then [.dataStart m.opcode m.compressed] else []) ++ bytes.map .dataByte
  else []

/-- What is said when a message is complete. -/
def endAtoms (cfg : Config) (m : Message) : List Atom :=
  if cfg.discard then [] else if cfg.raw then [.dataEnd] else [.message m.opcode m.payload]

/-! ## The stream -/

open Classical in
/-- The atoms of a byte sequence and the code of its first violation, 0 if there is
    none; `cur` is the data message in progress. -/
noncomputable def reference (cfg : Config) (cur : Option Message) (bytes : List UInt8) :
    List Atom × Nat :=
  match _hp : Header.parse bytes with
  | none => ([], 0)
  | some (h, rest) =>
      if ¬ h.Legal cfg cur.isSome then ([], kCloseProtocolError)
      else
        let payload := h.unmask (rest.take h.len)
        if h.IsControl then
          if rest.length < h.len then ([], 0)
          else
            let r := reference cfg cur (rest.drop h.len)
            (.control h.opcode payload :: r.1, r.2)
        else
          let m := (messageOf cur h).extend h.len payload
          let said := rawAtoms cfg cur.isNone m payload
          if m.Limited cfg ∧ cfg.maxMessage.toNat < m.size then ([], kCloseMessageTooBig)
          else if m.IsText cfg ∧ ¬ ValidPrefix m.payload then ([], kCloseInvalidData)
          else if rest.length < h.len then (said, 0)
          else if h.fin = false then
            let r := reference cfg (some m) (rest.drop h.len)
            (said ++ r.1, r.2)
          else if m.IsText cfg ∧ ¬ Valid m.payload then ([], kCloseInvalidData)
          else
            let r := reference cfg none (rest.drop h.len)
            (said ++ endAtoms cfg m ++ r.1, r.2)
termination_by bytes.length
decreasing_by
  all_goals
    have := Header.parse_length _hp
    rw [List.length_drop]
    omega

end WsFrame

import EcoCompiler.WsFrameSpec

/-! # Headers

    The bit tests of `startFrame` are the arithmetic of `Header.read`, its checks
    the rules of `Header.Legal`, and the bytes `headerNeed` asks for are those
    `Header.parse` reads.

    * `errors_eq_none_iff`: the two checks pass exactly on a legal header;
    * `parse_some`: a header that parses is as many bytes as it needs;
    * `startFrame_eq`: `startFrame` in terms of the header it reads. -/

namespace WsFrame

/-! ## Bits -/

/-- Testing one bit with a mask. -/
theorem and_two_pow_ne_zero_iff (n k : Nat) : n &&& 2 ^ k ≠ 0 ↔ n / 2 ^ k % 2 = 1 := by
  have hpos : 0 < 2 ^ k := Nat.two_pow_pos k
  rw [Nat.and_two_pow, Nat.testBit_eq_decide_div_mod_eq]
  by_cases h : n / 2 ^ k % 2 = 1
  · simp [h]
  · simp [h]

theorem and_0F (n : Nat) : n &&& 0x0F = n % 16 := Nat.and_two_pow_sub_one_eq_mod n 4

theorem and_7F (n : Nat) : n &&& 0x7F = n % 128 := Nat.and_two_pow_sub_one_eq_mod n 7

theorem and_80_ne_zero_iff (b : UInt8) : b.toNat &&& 0x80 ≠ 0 ↔ 128 ≤ b.toNat := by
  have := b.toNat_lt
  rw [show (0x80 : Nat) = 2 ^ 7 from rfl, and_two_pow_ne_zero_iff]
  omega

theorem and_bit63_ne_zero_iff {n : Nat} (h : n < 2 ^ 64) :
    n &&& (1 <<< 63) ≠ 0 ↔ 2 ^ 63 ≤ n := by
  rw [Nat.one_shiftLeft, and_two_pow_ne_zero_iff]
  omega

/-- Shifting bytes in from the right is reading them as digits. -/
theorem bigEndian_eq (bytes : List UInt8) : bigEndian bytes = bigEndianValue bytes := by
  induction bytes using List.reverseRecOn with
  | nil => rfl
  | append_singleton xs b ih =>
      have hfold : bigEndian (xs ++ [b]) = bigEndian xs <<< 8 ||| b.toNat := by
        rw [bigEndian, List.foldl_append]
        rfl
      have hval : bigEndianValue (xs ++ [b]) = b.toNat + 256 * bigEndianValue xs := by
        rw [bigEndianValue, List.reverse_append]
        rfl
      rw [hfold, hval, ← Nat.shiftLeft_add_eq_or_of_lt b.toNat_lt, Nat.shiftLeft_eq, ih]
      omega

theorem bigEndianValue_lt (bytes : List UInt8) : bigEndianValue bytes < 256 ^ bytes.length := by
  have hlt := Nat.ofDigits_lt_base_pow_length (b := 256) (l := bytes.reverse.map UInt8.toNat)
    (by decide) (by
      intro d hd
      obtain ⟨b, -, rfl⟩ := List.mem_map.mp hd
      exact b.toNat_lt)
  rw [List.length_map, List.length_reverse] at hlt
  exact hlt

/-! ## The header's fields -/

theorem headerNeed_cons (b0 b1 : UInt8) (rest : List UInt8) :
    headerNeed (b0 :: b1 :: rest) = 2 + headerTail b1 := by
  have hbit := and_80_ne_zero_iff b1
  rw [headerNeed, headerTail, extendedBytes, and_7F, Nat.add_assoc]
  by_cases h : 128 ≤ b1.toNat
  · rw [if_pos h, if_pos (hbit.mpr h)]
  · rw [if_neg h, if_neg (fun hb => h (hbit.mp hb))]

/-- A header's length field fits its bytes. -/
theorem read_len_lt (b0 b1 : UInt8) (rest : List UInt8) :
    (Header.read b0 b1 rest).len < 2 ^ 64
      ∧ (b1.toNat % 128 ≠ 127 → (Header.read b0 b1 rest).len < 2 ^ 63) := by
  have hlt := bigEndianValue_lt (rest.take (extendedBytes (b1.toNat % 128)))
  have hlen : (rest.take (extendedBytes (b1.toNat % 128))).length
      ≤ extendedBytes (b1.toNat % 128) := List.length_take_le _ _
  have hpow := Nat.pow_le_pow_right (show 0 < 256 by decide) hlen
  show (if extendedBytes (b1.toNat % 128) = 0 then b1.toNat % 128 else _) < _
    ∧ (_ → (if extendedBytes (b1.toNat % 128) = 0 then b1.toNat % 128 else _) < _)
  by_cases h0 : extendedBytes (b1.toNat % 128) = 0
  · rw [if_pos h0]
    omega
  · rw [if_neg h0]
    rw [extendedBytes] at h0 hpow
    split_ifs at hpow with h126 h127
    · rw [extendedBytes, if_pos h126] at hlt ⊢
      omega
    · rw [extendedBytes, if_neg h126, if_pos h127] at hlt ⊢
      omega
    · exact absurd (by rw [if_neg h126, if_neg h127]) h0

/-! ## The rules -/

/-- The first checks of `startFrame`, as a conjunction. -/
theorem headerError_eq_none_iff (cfg : Config) (b0 len7 len : Nat) (masked : Bool) :
    headerError cfg b0 len7 len masked = none ↔
      ¬ (len7 = 127 ∧ len &&& (1 <<< 63) ≠ 0)
      ∧ ¬ (b0 &&& 0x20 ≠ 0 ∨ b0 &&& 0x10 ≠ 0)
      ∧ ¬ (b0 &&& 0x40 ≠ 0 ∧ (!cfg.allowRsv1) = true)
      ∧ (b0 &&& 0x0F = kOpContinuation ∨ b0 &&& 0x0F = kOpText ∨ b0 &&& 0x0F = kOpBinary ∨
          b0 &&& 0x0F = kOpClose ∨ b0 &&& 0x0F = kOpPing ∨ b0 &&& 0x0F = kOpPong)
      ∧ masked = cfg.expectMasked
      ∧ ¬ (b0 &&& 0x40 ≠ 0 ∧ 0x8 ≤ b0 &&& 0x0F)
      ∧ ¬ (b0 &&& 0x40 ≠ 0 ∧ b0 &&& 0x0F = kOpContinuation) := by
  rw [headerError]
  split_ifs <;> simp_all

/-- The checks that look at the message in progress, as a conjunction. -/
theorem messageError_eq_none_iff (inMessage : Bool) (opcode len : Nat) (fin : Bool) :
    messageError inMessage opcode len fin = none ↔
      (8 ≤ opcode → fin = true ∧ len ≤ kMaxControlPayload)
      ∧ (¬ 8 ≤ opcode → opcode = kOpContinuation → inMessage = true)
      ∧ (¬ 8 ≤ opcode → opcode ≠ kOpContinuation → inMessage = false) := by
  rw [messageError]
  split_ifs <;> simp_all

/-- The checks of `startFrame` pass exactly on a legal header. -/
theorem errors_eq_none_iff (cfg : Config) (b0 b1 : UInt8) (rest : List UInt8)
    (inMessage : Bool) :
    (headerError cfg b0.toNat (b1.toNat % 128) (Header.read b0 b1 rest).len
        (Header.read b0 b1 rest).masked = none
      ∧ messageError inMessage (Header.read b0 b1 rest).opcode (Header.read b0 b1 rest).len
        (Header.read b0 b1 rest).fin = none)
      ↔ (Header.read b0 b1 rest).Legal cfg inMessage := by
  obtain ⟨h, hh⟩ : ∃ h, h = Header.read b0 b1 rest := ⟨_, rfl⟩
  obtain ⟨hlen, hlen7⟩ := hh ▸ read_len_lt b0 b1 rest
  have hop : b0.toNat &&& 0x0F = h.opcode := by
    rw [and_0F, hh]
    rfl
  have h1 : b0.toNat &&& 0x40 ≠ 0 ↔ h.rsv1 = true := by
    rw [show (0x40 : Nat) = 2 ^ 6 from rfl, and_two_pow_ne_zero_iff, hh]
    exact decide_eq_true_iff.symm
  have h2 : b0.toNat &&& 0x20 ≠ 0 ↔ h.rsv2 = true := by
    rw [show (0x20 : Nat) = 2 ^ 5 from rfl, and_two_pow_ne_zero_iff, hh]
    exact decide_eq_true_iff.symm
  have h3 : b0.toNat &&& 0x10 ≠ 0 ↔ h.rsv3 = true := by
    rw [show (0x10 : Nat) = 2 ^ 4 from rfl, and_two_pow_ne_zero_iff, hh]
    exact decide_eq_true_iff.symm
  rw [← hh, headerError_eq_none_iff, messageError_eq_none_iff, and_bit63_ne_zero_iff hlen,
    hop, h1, h2, h3]
  constructor
  -- the checks in the order of the source; RSV1 leaves only the first frame of a data message
  · rintro ⟨⟨c1, c2, c3, c4, c5, c6, c7⟩, c8, c9, c10⟩
    refine ⟨?_, by simpa using c2, ?_, c4, c5, c8, ?_, ?_⟩
    · by_cases h127 : b1.toNat % 128 = 127
      · omega
      · exact hlen7 h127
    · intro hr
      have hallow : cfg.allowRsv1 = true := by simpa [hr] using c3
      have hnc : ¬ 8 ≤ h.opcode := fun hc => c6 ⟨hr, hc⟩
      have hn0 : h.opcode ≠ kOpContinuation := fun hc => c7 ⟨hr, hc⟩
      refine ⟨hallow, ?_⟩
      simp only [kOpContinuation, kOpText, kOpBinary, kOpClose, kOpPing, kOpPong] at c4 hn0 ⊢
      omega
    · intro h0
      exact c9 (by rw [h0]; decide) h0
    · intro ht
      refine c10 ?_ ?_
      all_goals
        simp only [kOpContinuation, kOpText, kOpBinary] at ht ⊢
        omega
  · rintro ⟨l1, l2, l3, l4, l5, l6, l7, l8⟩
    refine ⟨⟨by omega, by simpa using l2, ?_, l4, l5, ?_, ?_⟩, l6, fun _ => l7, ?_⟩
    · rintro ⟨hr, ha⟩
      rw [(l3 hr).1] at ha
      exact Bool.false_ne_true ha
    · rintro ⟨hr, hc⟩
      have ht := (l3 hr).2
      simp only [kOpText, kOpBinary] at ht
      omega
    · rintro ⟨hr, hc⟩
      have ht := (l3 hr).2
      simp only [kOpContinuation, kOpText, kOpBinary] at ht hc
      omega
    · intro hnc hn0
      refine l8 ?_
      simp only [kOpContinuation, kOpText, kOpBinary, kOpClose, kOpPing, kOpPong] at l4 hn0 ⊢
      omega

/-! ## The bytes of a header -/

theorem parse_none {bytes : List UInt8} (hp : Header.parse bytes = none) :
    bytes.length < headerNeed bytes := by
  match bytes, hp with
  | [], _ => exact Nat.zero_lt_succ 1
  | [_], _ => exact Nat.lt_succ_self 1
  | b0 :: b1 :: rest, hp =>
      rw [Header.parse] at hp
      by_cases hshort : rest.length < headerTail b1
      · rw [headerNeed_cons, List.length_cons, List.length_cons]
        omega
      · rw [if_neg hshort] at hp
        cases hp

/-- A header that parses is the first bytes of the input, as many as it needs. -/
theorem parse_some {bytes rest : List UInt8} {h : Header}
    (hp : Header.parse bytes = some (h, rest)) :
    ∃ b0 b1 tail, h = Header.read b0 b1 tail ∧ bytes = (b0 :: b1 :: tail) ++ rest
      ∧ headerNeed (b0 :: b1 :: tail) = (b0 :: b1 :: tail).length := by
  match bytes, hp with
  | b0 :: b1 :: bs, hp =>
      rw [Header.parse] at hp
      by_cases hshort : bs.length < headerTail b1
      · rw [if_pos hshort] at hp
        cases hp
      · rw [if_neg hshort] at hp
        obtain ⟨rfl, rfl⟩ := Prod.mk.inj (Option.some.inj hp)
        refine ⟨b0, b1, bs.take (headerTail b1), rfl, ?_, ?_⟩
        · rw [List.cons_append, List.cons_append, List.take_append_drop]
        · rw [headerNeed_cons, List.length_cons, List.length_cons, List.length_take]
          omega

/-! ## The start of a frame -/

/-- The members `startFrame` sets before its checks. -/
def entered (d : WsDecoder) (h : Header) : WsDecoder :=
  { d with hdr := [], fin := h.fin, opcode := h.opcode, masked := h.masked,
           mask := if h.masked then h.key else d.mask }

/-- `startFrame` in terms of the header it reads. -/
theorem startFrame_eq (cfg : Config) (d : WsDecoder) (b0 b1 : UInt8)
    (tail : List UInt8) (h : Header) (hh : h = Header.read b0 b1 tail) :
    startFrame cfg { d with hdr := b0 :: b1 :: tail }
      = match headerError cfg b0.toNat (b1.toNat % 128) h.len h.masked with
        | some text => (entered d h).fail kCloseProtocolError text
        | none =>
            match messageError d.inMessage h.opcode h.len h.fin with
            | some text =>
                { entered d h with frameIsControl := decide (8 ≤ h.opcode) }.fail
                  kCloseProtocolError text
            | none =>
                if 8 ≤ h.opcode then
                  { entered d h with frameIsControl := decide (8 ≤ h.opcode), control := [],
                                     remaining := h.len, maskOffset := 0 }
                else
                  let d := openMessage
                    { entered d h with frameIsControl := decide (8 ≤ h.opcode) } h.rsv1
                  if checkSize cfg d.msgCompressed
                      ∧ cfg.maxMessage.toNat - min d.msgSize cfg.maxMessage.toNat < h.len then
                    d.fail kCloseMessageTooBig "the message is larger than maxMessageSize"
                  else startPayload cfg d h.len := by
  have hmask : decide (b1.toNat &&& 0x80 ≠ 0) = h.masked := by
    rw [hh]
    exact decide_eq_decide.mpr (and_80_ne_zero_iff b1)
  have hfin : decide (b0.toNat &&& 0x80 ≠ 0) = h.fin := by
    rw [hh]
    exact decide_eq_decide.mpr (and_80_ne_zero_iff b0)
  have hrsv1 : decide (b0.toNat &&& 0x40 ≠ 0) = h.rsv1 := by
    rw [hh]
    exact decide_eq_decide.mpr (and_two_pow_ne_zero_iff b0.toNat 6)
  have hop : b0.toNat &&& 0x0F = h.opcode := by
    rw [and_0F, hh]
    rfl
  have hext : (if b1.toNat % 128 = 126 then 2 else if b1.toNat % 128 = 127 then 8 else 0)
      = extendedBytes (b1.toNat % 128) := rfl
  -- 126 and 127 announce a length of two or eight bytes, other values are the length
  have hlen : (if b1.toNat % 128 = 126 ∨ b1.toNat % 128 = 127 then
      bigEndian (tail.take (extendedBytes (b1.toNat % 128))) else b1.toNat % 128) = h.len := by
    rw [bigEndian_eq, hh]
    show _ = if extendedBytes (b1.toNat % 128) = 0 then _ else _
    have hz : extendedBytes (b1.toNat % 128) = 0
        ↔ ¬ (b1.toNat % 128 = 126 ∨ b1.toNat % 128 = 127) := by
      rw [extendedBytes]
      split_ifs <;> simp_all
    by_cases hl : b1.toNat % 128 = 126 ∨ b1.toNat % 128 = 127
    · rw [if_pos hl, if_neg (fun h0 => hz.mp h0 hl)]
    · rw [if_neg hl, if_pos (hz.mpr hl)]
  have hkey : (fun i : Fin 4 => (tail.drop (extendedBytes (b1.toNat % 128))).getD i 0) = h.key := by
    rw [hh]
    rfl
  have hdrop : (b0 :: b1 :: tail).drop (2 + extendedBytes (b1.toNat % 128))
      = tail.drop (extendedBytes (b1.toNat % 128)) := by
    rw [Nat.add_comm]
    rfl
  rw [startFrame]
  simp only [List.getD_cons_zero, List.getD_cons_succ, and_7F, hop, hfin, hmask, hrsv1, hext,
    hdrop, hkey, List.drop_succ_cons, List.drop_zero, hlen]
  rfl

end WsFrame

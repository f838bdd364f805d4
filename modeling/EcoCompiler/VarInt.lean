import EcoCompiler.HostInt
import EcoCompiler.PrefixVarInt

/-! # PrefixVarInt encoding

    `Mlir.Bytecode.VarInt` over `Data.Int64`: the two encoders and the width predictor,
    on either host.

    * `toWords_spec`: the two words of an `Int` are its 64-bit two's complement;
    * `encodeVarInt_form`, `encodeVarInt_nine`: the bytes of `encodeVarInt`, threshold by
      threshold;
    * `encodeSignedVarInt_words`: the bytes of the zigzag value;
    * `varInt_roundTrip`: both encoders are undone by the format, and the width is the
      one predicted. -/

open PrefixVarInt

namespace VarInt

/-! ## `Data.Int64` -/

/-- `hostIs64`. -/
def hostIs64 (h : Host) : Bool := h.shiftLeftBy 32 1 ≠ 1

/-- `two32`. -/
def two32 : Int := 4294967296

/-- `u32`. -/
def u32 (h : Host) (x : Int) : Int := h.shiftRightZfBy 0 (h.and x 0xFFFFFFFF)

/-- `toWords`: the high and the low word. -/
def toWords (h : Host) (value : Int) : Int × Int :=
  if hostIs64 h then (u32 h (h.shiftRightBy 32 value), u32 h value)
  else
    let hiSigned := ⌊Host.fdiv (Host.toFloat value) (Host.toFloat two32)⌋
    (u32 h hiSigned, h.sub value (h.mul hiSigned two32))

/-! ## The encoders

    A `Bytes.Encode.Encoder` is the bytes it writes. -/

/-- `Bytes.Encode.unsignedInt8`: the low byte. -/
def unsignedInt8 (n : Int) : List UInt8 := [UInt8.ofNat (n % 256).toNat]

/-- `Bytes.Encode.unsignedInt32 Bytes.LE`: the low four bytes. -/
def unsignedInt32LE (n : Int) : List UInt8 := littleEndian 4 (n % two32).toNat

/-- `Bytes.Encode.sequence`. -/
def sequence (encoders : List (List UInt8)) : List UInt8 := encoders.flatten

/-- `encodeWords9`. -/
def encodeWords9 (hi lo : Int) : List UInt8 :=
  sequence [unsignedInt8 0x00, unsignedInt32LE lo, unsignedInt32LE hi]

/-- `encode9Bytes`. -/
def encode9Bytes (h : Host) (value : Int) : List UInt8 :=
  let (hi, lo) := toWords h value
  encodeWords9 hi lo

/-- `encodeLargeVarInt`. -/
def encodeLargeVarInt (h : Host) (value : Int) : List UInt8 := encode9Bytes h value

/-- `encodeVarInt`. -/
def encodeVarInt (h : Host) (value : Int) : List UInt8 :=
  if value < 0 then encode9Bytes h value
  else if value < 0x80 then unsignedInt8 (h.or (h.shiftLeftBy 1 value) 1)
  else if value < 0x4000 then
    let tagged := h.or (h.shiftLeftBy 2 value) 2
    sequence
      [ unsignedInt8 (h.and tagged 0xFF)
      , unsignedInt8 (h.and (h.shiftRightZfBy 8 tagged) 0xFF)
      ]
  else if value < 0x00200000 then
    let tagged := h.or (h.shiftLeftBy 3 value) 4
    sequence
      [ unsignedInt8 (h.and tagged 0xFF)
      , unsignedInt8 (h.and (h.shiftRightZfBy 8 tagged) 0xFF)
      , unsignedInt8 (h.and (h.shiftRightZfBy 16 tagged) 0xFF)
      ]
  else if value < 0x10000000 then
    -- under JavaScript negative from `2 ^ 27` up
    let tagged := h.or (h.shiftLeftBy 4 value) 8
    sequence
      [ unsignedInt8 (h.and tagged 0xFF)
      , unsignedInt8 (h.and (h.shiftRightZfBy 8 tagged) 0xFF)
      , unsignedInt8 (h.and (h.shiftRightZfBy 16 tagged) 0xFF)
      , unsignedInt8 (h.and (h.shiftRightZfBy 24 tagged) 0xFF)
      ]
  else encodeLargeVarInt h value

/-- `varIntWidth`. -/
def varIntWidth (value : Int) : Int :=
  if value < 0 then 9
  else if value < 0x80 then 1
  else if value < 0x4000 then 2
  else if value < 0x00200000 then 3
  else if value < 0x10000000 then 4
  else 9

/-- `encodeSignedVarInt`. -/
def encodeSignedVarInt (h : Host) (value : Int) : List UInt8 :=
  if 0 ≤ value ∧ value < 0x0010000000000000 then encodeVarInt h (h.mul value 2)
  else if value < 0 ∧ -0x0010000000000000 < value then
    encodeVarInt h (h.sub (h.mul (-2) value) 1)
  else
    let (hi, lo) := toWords h value
    let shiftedHi := h.or (h.shiftLeftBy 1 hi) (h.shiftRightZfBy 31 lo)
    let shiftedLo := h.shiftLeftBy 1 lo
    let sign := if value < 0 then 0xFFFFFFFF else 0
    encodeWords9 (u32 h (h.xor shiftedHi sign)) (u32 h (h.xor shiftedLo sign))

/-! ## The words of an `Int` -/

/-- Either host keeps the low 32 bits as an unsigned number. -/
theorem u32_eq (h : Host) (x : Int) : u32 h x = x % 2 ^ 32 := by
  have hmask : h.word (h.and x 0xFFFFFFFF) = h.word x % 2 ^ 32 := by
    rw [Host.word_and, show (0xFFFFFFFF : Int) = ((2 ^ 32 - 1 : Nat) : Int) from rfl,
      h.word_of_lt (by norm_num), Nat.and_two_pow_sub_one_eq_mod]
  have hcount : h.count 0 = 0 := h.count_of_lt (k := 0) (by norm_num)
  have hlt : h.word x % 2 ^ 32 < 2 ^ 32 := Nat.mod_lt _ (by norm_num)
  rw [u32, Host.shiftRightZfBy_of_lt] <;> rw [hmask, hcount, pow_zero, Nat.div_one]
  · exact h.word_mod x
  · exact hlt

theorem toWords_native {value : Int} (hv : Host.native.Holds value) :
    toWords .native value = (value / 2 ^ 32 % 2 ^ 32, value % 2 ^ 32) := by
  have hhost : hostIs64 .native = true := by decide
  have hshift : Host.native.shiftRightBy 32 value = value / 2 ^ 32 := by
    obtain ⟨h₁, h₂⟩ := hv
    have hint : (BitVec.ofInt 64 value).toInt = value := by
      simp only [BitVec.toInt_ofInt, Int.bmod]
      omega
    show ((BitVec.ofInt 64 value).sshiftRight 32).toInt = _
    rw [BitVec.toInt_sshiftRight, hint, Int.shiftRight_eq_div_pow]
    rfl
  rw [toWords, if_pos hhost, hshift, u32_eq, u32_eq]

theorem toFloat_two32 : Host.toFloat two32 = 2 ^ 32 := by
  have hd : Double.IsDouble ((two32 : Int) : ℚ) := Double.isDouble_intCast (by decide)
  rw [Host.toFloat, hd, two32]
  norm_num

/-- The high word in its place. -/
theorem mul_two32 {hi : Int} (hhi : |hi| < 2 ^ 53) :
    Host.javascript.mul hi two32 = hi * 2 ^ 32 := by
  have hcast : ((hi * 2 ^ 32 : Int) : ℚ) = (hi : ℚ) * 2 ^ (32 : ℤ) := by
    rw [Int.cast_mul]
    norm_num
  have hprod : Double.IsDouble ((hi * 2 ^ 32 : Int) : ℚ) := by
    rw [hcast]
    exact (Double.isDouble_intCast hhi).mul_zpow 32
  exact Host.keep_of_holds (h := .javascript) hprod

theorem toWords_javascript {value : Int} (hv : Host.javascript.Holds value)
    (hlo : -2 ^ 63 ≤ value) (hhi : value < 2 ^ 64) :
    toWords .javascript value = (value / 2 ^ 32 % 2 ^ 32, value % 2 ^ 32) := by
  have hhost : hostIs64 .javascript = false := by decide
  have hd : Double.IsDouble (value : ℚ) := hv
  have hfloor : ⌊Host.fdiv (Host.toFloat value) (Host.toFloat two32)⌋ = value / 2 ^ 32 := by
    rw [toFloat_two32]
    exact Host.floor_fdiv hd 32
  have hmul : Host.javascript.mul (value / 2 ^ 32) two32 = value / 2 ^ 32 * 2 ^ 32 :=
    mul_two32 (by rw [abs_lt]; omega)
  have hsub : Host.javascript.sub value (value / 2 ^ 32 * 2 ^ 32) = value % 2 ^ 32 := by
    have hrest : value - value / 2 ^ 32 * 2 ^ 32 = value % 2 ^ 32 := by omega
    rw [Host.sub, hrest]
    exact Host.keep_of_holds (Host.holds_of_lt _ (by omega) (by omega))
  rw [toWords, hhost, if_neg Bool.false_ne_true]
  simp only [hfloor, hmul, hsub, u32_eq]

/-- The words are the 64-bit two's complement. -/
theorem toWords_spec {h : Host} {value : Int} (hv : h.Holds value) (hlo : -2 ^ 63 ≤ value)
    (hhi : value < 2 ^ 64) :
    toWords h value = (value / 2 ^ 32 % 2 ^ 32, value % 2 ^ 32) := by
  cases h with
  | native => exact toWords_native hv
  | javascript => exact toWords_javascript hv hlo hhi

/-! ## The bytes of `encodeVarInt` -/

/-- A byte is taken from the low bits, whatever the host. -/
theorem unsignedInt8_eq (h : Host) (n : Int) : unsignedInt8 n = [UInt8.ofNat (h.word n)] := by
  have hw := h.word_mod n
  rw [unsignedInt8]
  congr 1
  apply UInt8.toNat_inj.mp
  rw [UInt8.toNat_ofNat', UInt8.toNat_ofNat']
  omega

theorem unsignedInt8_and (h : Host) (n : Int) :
    unsignedInt8 (h.and n 0xFF) = [UInt8.ofNat (h.word n)] := by
  rw [unsignedInt8_eq h, Host.word_and, show (0xFF : Int) = ((2 ^ 8 - 1 : Nat) : Int) from rfl,
    h.word_of_lt (by norm_num), Nat.and_two_pow_sub_one_eq_mod]
  congr 1
  apply UInt8.toNat_inj.mp
  rw [UInt8.toNat_ofNat', UInt8.toNat_ofNat', Nat.mod_mod]

/-- A byte above the low one. -/
theorem unsignedInt8_shifted (h : Host) (n : Int) {k : Nat} (hk : k < 32) :
    unsignedInt8 (h.and (h.shiftRightZfBy k n) 0xFF) = [UInt8.ofNat (h.word n / 2 ^ k)] := by
  rw [unsignedInt8_and, Host.word_shiftRightZfBy, h.count_of_lt hk]

/-- The value beside its length bits, also where JavaScript reads it as negative. -/
theorem word_tagged (h : Host) {k v : Nat} (hk : k < 4) (hv : v < 2 ^ (7 * (k + 1))) :
    h.word (h.or (h.shiftLeftBy (k + 1 : Nat) v) (2 ^ k : Nat)) = v * 2 ^ (k + 1) + 2 ^ k := by
  have hle : 2 ^ (7 * (k + 1)) ≤ 2 ^ 28 := Nat.pow_le_pow_right (by norm_num) (by omega)
  have htag : 2 ^ k < 2 ^ (k + 1) := Nat.pow_lt_pow_right (by norm_num) (by omega)
  have htag' : 2 ^ (k + 1) ≤ 2 ^ 4 := Nat.pow_le_pow_right (by norm_num) (by omega)
  have hshift : v * 2 ^ (k + 1) < 2 ^ 32 := by
    calc v * 2 ^ (k + 1) < 2 ^ 28 * 2 ^ (k + 1) :=
          Nat.mul_lt_mul_of_pos_right (by omega) (by positivity)
      _ ≤ 2 ^ 28 * 2 ^ 4 := Nat.mul_le_mul_left _ htag'
  have hwidth : 2 ^ 32 ≤ 2 ^ h.width := by cases h <;> norm_num [Host.width]
  rw [Host.word_or, Host.word_shiftLeftBy, h.count_of_lt (by omega), h.word_of_lt (by omega),
    h.word_of_lt (by omega), Nat.mod_eq_of_lt (by omega), ← Nat.shiftLeft_eq,
    Nat.shiftLeft_add_eq_or_of_lt htag]

/-- The bytes of a tagged value, low byte first. -/
theorem sequence_tagged (h : Host) (tagged : Int) :
    sequence
        [ unsignedInt8 (h.and tagged 0xFF)
        , unsignedInt8 (h.and (h.shiftRightZfBy 8 tagged) 0xFF)
        , unsignedInt8 (h.and (h.shiftRightZfBy 16 tagged) 0xFF)
        , unsignedInt8 (h.and (h.shiftRightZfBy 24 tagged) 0xFF)
        ] = littleEndian 4 (h.word tagged) := by
  have h₁ := unsignedInt8_shifted h tagged (k := 8) (by norm_num)
  have h₂ := unsignedInt8_shifted h tagged (k := 16) (by norm_num)
  have h₃ := unsignedInt8_shifted h tagged (k := 24) (by norm_num)
  simp only [Nat.cast_ofNat] at h₁ h₂ h₃
  simp [sequence, unsignedInt8_and, h₁, h₂, h₃, littleEndian, Nat.div_div_eq_div_mul]

/-- The forms of two and three bytes leave the upper bytes out. -/
theorem sequence_tagged_take (h : Host) (tagged : Int) :
    sequence
        [ unsignedInt8 (h.and tagged 0xFF)
        , unsignedInt8 (h.and (h.shiftRightZfBy 8 tagged) 0xFF)
        ] = littleEndian 2 (h.word tagged)
      ∧ sequence
        [ unsignedInt8 (h.and tagged 0xFF)
        , unsignedInt8 (h.and (h.shiftRightZfBy 8 tagged) 0xFF)
        , unsignedInt8 (h.and (h.shiftRightZfBy 16 tagged) 0xFF)
        ] = littleEndian 3 (h.word tagged) := by
  have h₁ := unsignedInt8_shifted h tagged (k := 8) (by norm_num)
  have h₂ := unsignedInt8_shifted h tagged (k := 16) (by norm_num)
  simp only [Nat.cast_ofNat] at h₁ h₂
  constructor <;>
    simp [sequence, unsignedInt8_and, h₁, h₂, littleEndian, Nat.div_div_eq_div_mul]

/-- Below `2 ^ 28` the shortest form is written, of the width predicted. -/
theorem encodeVarInt_form (h : Host) {v : Nat} (hv : v < 2 ^ 28) :
    ∃ k, k < 4 ∧ v < 2 ^ (7 * (k + 1)) ∧ encodeVarInt h v = form (k + 1) v
      ∧ varIntWidth v = (k + 1 : Nat) := by
  have hn : ¬(v : Int) < 0 := by omega
  rw [encodeVarInt, varIntWidth, if_neg hn, if_neg hn]
  by_cases h₁ : (v : Int) < 0x80
  · have hlt : v < 2 ^ (7 * (0 + 1)) := by omega
    refine ⟨0, by omega, hlt, ?_, by rw [if_pos h₁]; rfl⟩
    rw [if_pos h₁, unsignedInt8_eq h]
    exact congrArg (fun n => [UInt8.ofNat n]) (word_tagged h (by omega) hlt)
  rw [if_neg h₁, if_neg h₁]
  by_cases h₂ : (v : Int) < 0x4000
  · have hlt : v < 2 ^ (7 * (1 + 1)) := by omega
    refine ⟨1, by omega, hlt, ?_, by rw [if_pos h₂]; rfl⟩
    rw [if_pos h₂]
    exact (sequence_tagged_take h _).1.trans
      (congrArg (littleEndian 2) (word_tagged h (by omega) hlt))
  rw [if_neg h₂, if_neg h₂]
  by_cases h₃ : (v : Int) < 0x00200000
  · have hlt : v < 2 ^ (7 * (2 + 1)) := by omega
    refine ⟨2, by omega, hlt, ?_, by rw [if_pos h₃]; rfl⟩
    rw [if_pos h₃]
    exact (sequence_tagged_take h _).2.trans
      (congrArg (littleEndian 3) (word_tagged h (by omega) hlt))
  have h₄ : (v : Int) < 0x10000000 := by omega
  rw [if_neg h₃, if_neg h₃, if_pos h₄, if_pos h₄]
  refine ⟨3, by omega, hv, ?_, rfl⟩
  exact (sequence_tagged h _).trans (congrArg (littleEndian 4) (word_tagged h (by omega) hv))

/-! ## The form of nine bytes -/

/-- Two unsigned words make the form of nine bytes. -/
theorem encodeWords9_eq {hi lo : Nat} (hlo : lo < 2 ^ 32) :
    encodeWords9 hi lo = nine (lo + 2 ^ 32 * (hi % 2 ^ 32)) := by
  have hlow : littleEndian 4 (lo + 2 ^ 32 * (hi % 2 ^ 32)) = littleEndian 4 lo := by
    rw [← littleEndian_mod, ← littleEndian_mod 4 lo]
    congr 1
    omega
  have hhigh : (lo + 2 ^ 32 * (hi % 2 ^ 32)) / 256 ^ 4 = hi % 2 ^ 32 := by omega
  have hmod : ∀ n : Nat, unsignedInt32LE n = littleEndian 4 (n % 2 ^ 32) := by
    intro n
    rw [unsignedInt32LE, two32]
    congr 1
  have hlo' : lo % 4294967296 = lo := Nat.mod_eq_of_lt hlo
  rw [nine, show (8 : Nat) = 4 + 4 from rfl, littleEndian_append, hlow, hhigh]
  simp [encodeWords9, sequence, hmod, unsignedInt8, hlo']

theorem encode9Bytes_eq {h : Host} {value : Int} (hv : h.Holds value) (hlo : -2 ^ 63 ≤ value)
    (hhi : value < 2 ^ 64) : encode9Bytes h value = nine (value % 2 ^ 64).toNat := by
  obtain ⟨lo, hl⟩ : ∃ lo : Nat, value % 2 ^ 32 = lo := ⟨(value % 2 ^ 32).toNat, by omega⟩
  obtain ⟨hi, hh⟩ : ∃ hi : Nat, value / 2 ^ 32 % 2 ^ 32 = hi :=
    ⟨(value / 2 ^ 32 % 2 ^ 32).toNat, by omega⟩
  rw [encode9Bytes, toWords_spec hv hlo hhi, hl, hh]
  dsimp only
  rw [encodeWords9_eq (by omega)]
  congr 1
  omega

/-- Anything else takes nine bytes, and so it was predicted. -/
theorem encodeVarInt_nine {h : Host} {value : Int} (hv : h.Holds value) (hlo : -2 ^ 63 ≤ value)
    (hhi : value < 2 ^ 64) (hlarge : value < 0 ∨ 2 ^ 28 ≤ value) :
    encodeVarInt h value = nine (value % 2 ^ 64).toNat ∧ varIntWidth value = 9 := by
  rw [← encode9Bytes_eq hv hlo hhi, encodeVarInt, varIntWidth]
  rcases hlarge with hneg | hbig
  · rw [if_pos hneg, if_pos hneg]
    exact ⟨rfl, rfl⟩
  · rw [if_neg (by omega), if_neg (by omega), if_neg (by omega), if_neg (by omega),
      if_neg (by omega), if_neg (by omega), if_neg (by omega), if_neg (by omega),
      if_neg (by omega), if_neg (by omega)]
    exact ⟨rfl, rfl⟩

/-- `encodeVarInt` is undone by the format, and its width is the one predicted. -/
theorem decode_encodeVarInt {h : Host} {value : Int} (hv : h.Holds value)
    (hlo : -2 ^ 63 ≤ value) (hhi : value < 2 ^ 64) (rest : List UInt8) :
    decode (encodeVarInt h value ++ rest) = some ((value % 2 ^ 64).toNat, rest)
      ∧ ((encodeVarInt h value).length : Int) = varIntWidth value := by
  by_cases hlarge : value < 0 ∨ 2 ^ 28 ≤ value
  · obtain ⟨hbytes, hwidth⟩ := encodeVarInt_nine hv hlo hhi hlarge
    rw [hbytes, hwidth, nine_length, decode_nine (by omega)]
    exact ⟨rfl, rfl⟩
  · obtain ⟨v, rfl⟩ : ∃ v : Nat, value = v := ⟨value.toNat, by omega⟩
    obtain ⟨k, hk, hbits, hbytes, hwidth⟩ := encodeVarInt_form h (v := v) (by omega)
    have hsame : ((v : Int) % 2 ^ 64).toNat = v := by omega
    rw [hbytes, hwidth, form_length, decode_form (by omega) hbits, hsame]
    exact ⟨rfl, rfl⟩

/-! ## Signed integers -/

/-- The low half of the doubled value, with the sign folded in. -/
theorem zigzag_lo (h : Host) {lo sign : Nat} (hlo : lo < 2 ^ 32) (hs : sign < 2 ^ 32) :
    u32 h (h.xor (h.shiftLeftBy 1 lo) sign) = (2 * lo % 2 ^ 32 ^^^ sign : Nat) := by
  have hcount : h.count 1 = 1 := h.count_of_lt (k := 1) (by norm_num)
  have hdvd : 2 ^ 32 ∣ 2 ^ h.width := by cases h <;> decide
  rw [u32_eq, ← h.word_mod, Host.word_xor, Host.word_shiftLeftBy, hcount, h.word_of_lt hlo,
    h.word_of_lt hs, Nat.xor_mod_two_pow, Nat.mod_mod_of_dvd _ hdvd, Nat.mod_eq_of_lt hs,
    pow_one, Nat.mul_comm]

/-- The high half: the bit that leaves the low word comes in below. -/
theorem zigzag_hi (h : Host) {hi lo sign : Nat} (hhi : hi < 2 ^ 32) (hlo : lo < 2 ^ 32)
    (hs : sign < 2 ^ 32) :
    u32 h (h.xor (h.or (h.shiftLeftBy 1 hi) (h.shiftRightZfBy 31 lo)) sign)
      = ((2 * hi + lo / 2 ^ 31) % 2 ^ 32 ^^^ sign : Nat) := by
  have hcount : h.count 1 = 1 := h.count_of_lt (k := 1) (by norm_num)
  have hcount' : h.count 31 = 31 := h.count_of_lt (k := 31) (by norm_num)
  have hdvd : 2 ^ 32 ∣ 2 ^ h.width := by cases h <;> decide
  have hbit : lo / 2 ^ 31 < 2 ^ 1 := by omega
  rw [u32_eq, ← h.word_mod, Host.word_xor, Host.word_or, Host.word_shiftLeftBy,
    Host.word_shiftRightZfBy, hcount, hcount', h.word_of_lt hhi, h.word_of_lt hlo,
    h.word_of_lt hs, Nat.xor_mod_two_pow, Nat.or_mod_two_pow, Nat.mod_mod_of_dvd _ hdvd,
    ← Nat.or_mod_two_pow, ← Nat.shiftLeft_eq, ← Nat.shiftLeft_add_eq_or_of_lt hbit,
    Nat.shiftLeft_eq, Nat.mod_eq_of_lt hs, pow_one, Nat.mul_comm hi]

/-- Folding in a sign of all ones complements a word. -/
theorem xor_allOnes {n : Nat} (hn : n < 2 ^ 32) : n ^^^ 0xFFFFFFFF = 2 ^ 32 - 1 - n := by
  have hnot := congrArg BitVec.toNat (BitVec.xor_allOnes (x := BitVec.ofNat 32 n))
  rwa [BitVec.toNat_not, BitVec.toNat_xor, BitVec.toNat_ofNat, Nat.mod_eq_of_lt hn] at hnot

/-- The bytes of `encodeSignedVarInt` from `2 ^ 52` on. -/
theorem encodeSignedVarInt_words {h : Host} {value : Int} (hv : h.Holds value)
    (hlo : -2 ^ 63 ≤ value) (hhi : value < 2 ^ 63)
    (hlarge : value ≤ -2 ^ 52 ∨ 2 ^ 52 ≤ value) :
    encodeSignedVarInt h value = nine (zigzag value) := by
  obtain ⟨lo, hl⟩ : ∃ lo : Nat, value % 2 ^ 32 = lo := ⟨(value % 2 ^ 32).toNat, by omega⟩
  obtain ⟨hi, hh⟩ : ∃ hi : Nat, value / 2 ^ 32 % 2 ^ 32 = hi :=
    ⟨(value / 2 ^ 32 % 2 ^ 32).toNat, by omega⟩
  rw [encodeSignedVarInt, if_neg (by omega), if_neg (by omega),
    toWords_spec hv hlo (by omega), hl, hh]
  dsimp only
  rcases hlarge with hneg | hpos
  · rw [if_pos (by omega), show (0xFFFFFFFF : Int) = ((0xFFFFFFFF : Nat) : Int) from rfl,
      zigzag_hi h (by omega) (by omega) (by norm_num), zigzag_lo h (by omega) (by norm_num),
      xor_allOnes (Nat.mod_lt _ (by norm_num)), xor_allOnes (Nat.mod_lt _ (by norm_num)),
      encodeWords9_eq (by omega)]
    congr 1
    rw [zigzag, if_neg (by omega)]
    omega
  · rw [if_neg (by omega), show (0 : Int) = ((0 : Nat) : Int) from rfl,
      zigzag_hi h (by omega) (by omega) (by norm_num), zigzag_lo h (by omega) (by norm_num),
      Nat.xor_zero, Nat.xor_zero, encodeWords9_eq (by omega)]
    congr 1
    rw [zigzag, if_pos (by omega)]
    omega

/-- Below `2 ^ 52` the doubled value is exact on either host. -/
theorem encodeSignedVarInt_small {h : Host} {value : Int} (hlo : -2 ^ 52 < value)
    (hhi : value < 2 ^ 52) : encodeSignedVarInt h value = encodeVarInt h (zigzag value) := by
  rw [encodeSignedVarInt, zigzag]
  by_cases hneg : value < 0
  · have hmul : h.mul (-2) value = -2 * value :=
      Host.keep_of_holds (h.holds_of_lt (by omega) (by omega))
    have hsub : h.sub (-2 * value) 1 = -2 * value - 1 :=
      Host.keep_of_holds (h.holds_of_lt (by omega) (by omega))
    rw [if_neg (by omega), if_pos ⟨hneg, by omega⟩, if_neg (by omega), hmul, hsub]
    congr 1
    omega
  · have hmul : h.mul value 2 = value * 2 :=
      Host.keep_of_holds (h.holds_of_lt (by omega) (by omega))
    rw [if_pos ⟨by omega, by omega⟩, if_pos (by omega), hmul]
    congr 1
    omega

/-- `encodeSignedVarInt` is undone by the format and the zigzag map. -/
theorem decode_encodeSignedVarInt {h : Host} {value : Int} (hv : h.Holds value)
    (hlo : -2 ^ 63 ≤ value) (hhi : value < 2 ^ 63) (rest : List UInt8) :
    decode (encodeSignedVarInt h value ++ rest) = some (zigzag value, rest) := by
  by_cases hlarge : value ≤ -2 ^ 52 ∨ 2 ^ 52 ≤ value
  · rw [encodeSignedVarInt_words hv hlo hhi hlarge]
    refine decode_nine ?_ rest
    rw [zigzag]
    split <;> omega
  · have hz : (zigzag value : Int) < 2 ^ 53 := by
      rw [zigzag]
      split <;> omega
    have hsame : ((zigzag value : Int) % 2 ^ 64).toNat = zigzag value := by omega
    have hdec := (decode_encodeVarInt (h.holds_of_lt (x := zigzag value) (by omega) hz)
      (by omega) (by omega) rest).1
    rw [encodeSignedVarInt_small (by omega) (by omega), hdec, hsame]

/-- **ROUND TRIP**: on either host, for every 64-bit integer it holds exactly, the format
    undoes both encoders, and `encodeVarInt` writes the bytes predicted. -/
theorem varInt_roundTrip (h : Host) (value : Int) (hv : h.Holds value) (rest : List UInt8) :
    (-2 ^ 63 ≤ value → value < 2 ^ 64 →
      decode (encodeVarInt h value ++ rest) = some ((value % 2 ^ 64).toNat, rest)
        ∧ ((encodeVarInt h value).length : Int) = varIntWidth value)
    ∧ (-2 ^ 63 ≤ value → value < 2 ^ 63 →
      (decode (encodeSignedVarInt h value ++ rest)).map
          (fun read => (zigzagDecode read.1, read.2)) = some (value, rest)) := by
  refine ⟨fun hlo hhi => decode_encodeVarInt hv hlo hhi rest, fun hlo hhi => ?_⟩
  rw [decode_encodeSignedVarInt hv hlo hhi, Option.map_some, zigzagDecode_zigzag]

/-- At the bounds of either host. -/
theorem varInt_roundTrip_bounds :
    (decode (encodeSignedVarInt .native (-2 ^ 63) ++ [7])).map
        (fun read => (zigzagDecode read.1, read.2)) = some (-2 ^ 63, [7])
      ∧ (decode (encodeSignedVarInt .javascript (-2 ^ 63) ++ [7])).map
        (fun read => (zigzagDecode read.1, read.2)) = some (-2 ^ 63, [7]) :=
  ⟨(varInt_roundTrip .native (-2 ^ 63) (by decide) [7]).2 (by norm_num) (by norm_num),
    (varInt_roundTrip .javascript (-2 ^ 63)
      (by
        have := Double.isDouble_mul_zpow (m := -1) (by norm_num) 63
        show Double.IsDouble _
        norm_num at this ⊢
        exact this) [7]).2 (by norm_num) (by norm_num)⟩

end VarInt

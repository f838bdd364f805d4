import EcoCompiler.ParseNumberSpec
import EcoCompiler.VarInt

/-! # The value of an integer literal, on either host

    `Data.Int64.fromLiteral`: digit by digit, in two words that both hosts hold exactly.

    * `mulAdd_eq` — a step is the same on both hosts;
    * `fromWords_native`, `fromWords_javascript` — the `Int` of two words, where the host can
      hold it;
    * `fromLiteral_eq` — the value of a literal modulo 2^64, where the host can hold it. -/

namespace Int64Literal

open Primitives VarInt
open DataInt64 (chars wrap)

/-! ## `Data.Int64` -/

/-- `fromWords`. -/
def fromWords (h : Host) (hi lo : Int) : Option Int :=
  if hostIs64 h then some (h.or (h.shiftLeftBy 32 hi) lo)
  else
    let hiSigned := if 0x80000000 ≤ hi then h.sub hi two32 else hi
    let value := h.add (h.mul hiSigned two32) lo
    if toWords h value = (hi, lo) then some value else none

/-- `mulAdd`: `( hi, lo ) * m + d`. -/
def mulAdd (h : Host) (m d : Int) (words : Int × Int) : Int × Int :=
  let (hi, lo) := words
  let loFull := h.add (h.mul lo m) d
  let carry := ⌊Host.fdiv (Host.toFloat loFull) (Host.toFloat two32)⌋
  let hiLow16 := h.and hi 0xFFFF
  let hiHigh16 := h.shiftRightZfBy 16 hi
  let newLow := h.add (h.mul hiLow16 m) carry
  let newHigh :=
    h.and (h.add (h.mul hiHigh16 m) ⌊Host.fdiv (Host.toFloat newLow) 65536⌋) 0xFFFF
  (u32 h (h.add (h.mul newHigh 65536) (h.and newLow 0xFFFF)), h.sub loFull (h.mul carry two32))

/-- `hexValue`. -/
def hexValue (h : Host) (c : Nat) : Int :=
  let code : Int := c
  if code ≤ 0x39 then h.sub code 0x30
  else if code ≤ 0x46 then h.sub code 0x37
  else h.sub code 0x57

/-- `fromLiteral`. -/
def fromLiteral (h : Host) (text : Text) : Option Int :=
  let (hi, lo) :=
    if ascii "0x" <+: text then
      (chars (text.drop 2)).foldl (fun acc c => mulAdd h 16 (hexValue h c) acc) (0, 0)
    else (chars text).foldl (fun acc (c : Nat) => mulAdd h 10 (h.sub c 48) acc) (0, 0)
  fromWords h hi lo

/-! ## One digit -/

/-- Both words of a pair of natural numbers. -/
def ofNats (words : Nat × Nat) : Int × Int := (words.1, words.2)

/-- Arithmetic below `2 ^ 53` is exact. -/
theorem keep_natCast (h : Host) {n : Nat} (hn : n < 2 ^ 53) : h.keep n = n :=
  Host.keep_of_holds (h.holds_of_lt (by omega) (by omega))

theorem add_natCast (h : Host) {a b : Nat} (hlt : a + b < 2 ^ 53) : h.add a b = (a + b : Nat) := by
  rw [Host.add, ← Nat.cast_add, keep_natCast h hlt]

theorem mul_natCast (h : Host) {a b : Nat} (hlt : a * b < 2 ^ 53) : h.mul a b = (a * b : Nat) := by
  rw [Host.mul, ← Nat.cast_mul, keep_natCast h hlt]

theorem sub_natCast (h : Host) {a b : Nat} (hle : b ≤ a) (hlt : a < 2 ^ 53) :
    h.sub a b = (a - b : Nat) := by
  rw [Host.sub, ← Nat.cast_sub hle, keep_natCast h (by omega)]

theorem floor_natCast {n : Nat} (hn : n < 2 ^ 53) (k : Nat) :
    ⌊Host.fdiv (Host.toFloat n) (2 ^ k)⌋ = (n / 2 ^ k : Nat) := by
  have hd : Double.IsDouble ((n : Int) : ℚ) := Double.isDouble_intCast (abs_lt.mpr (by omega))
  rw [Host.floor_fdiv hd]
  push_cast
  rfl

theorem and_natCast (h : Host) (n : Nat) : h.and n 0xFFFF = (n % 2 ^ 16 : Nat) := by
  have hmask := h.and_mask (k := 16) (by norm_num) n
  push_cast at hmask ⊢
  exact hmask

theorem shift_natCast (h : Host) {n : Nat} (hn : n < 2 ^ 32) :
    h.shiftRightZfBy 16 n = (n / 2 ^ 16 : Nat) := by
  have hcount : h.count 16 = 16 := h.count_of_lt (k := 16) (by norm_num)
  rw [Host.shiftRightZfBy_of_lt] <;> rw [h.word_of_lt hn, hcount]
  omega

/-- A step is exact on both hosts. -/
theorem mulAdd_eq (h : Host) {m d hi lo : Nat} (hm : m < 2 ^ 5) (hd : d < 2 ^ 5)
    (hhi : hi < 2 ^ 32) (hlo : lo < 2 ^ 32) :
    mulAdd h m d (ofNats (hi, lo)) = ofNats (DataInt64.mulAdd m d (hi, lo)) := by
  have hprod : ∀ {x k : Nat}, x < 2 ^ k → x * m < 2 ^ (k + 5) := fun {x k} hx => by
    calc x * m ≤ x * 2 ^ 5 := Nat.mul_le_mul_left x hm.le
      _ < 2 ^ k * 2 ^ 5 := Nat.mul_lt_mul_of_pos_right hx (by norm_num)
      _ = 2 ^ (k + 5) := (pow_add 2 k 5).symm
  have hlom : lo * m < 2 ^ 37 := hprod hlo
  have hlow : hi % 2 ^ 16 * m < 2 ^ 21 := hprod (Nat.mod_lt _ (by norm_num))
  have hhigh : hi / 2 ^ 16 * m < 2 ^ 21 := hprod (by omega)
  have htwo : (two32 : Int) = ((2 ^ 32 : Nat) : Int) := rfl
  have hfloat : (65536 : ℚ) = 2 ^ 16 := by norm_num
  -- the low word and its carry
  have hfull : h.add (h.mul lo m) d = (lo * m + d : Nat) := by
    rw [mul_natCast h (by omega), add_natCast h (by omega)]
  have hcarry : ⌊Host.fdiv (Host.toFloat (lo * m + d : Nat)) (Host.toFloat two32)⌋
      = ((lo * m + d) / 2 ^ 32 : Nat) := by
    rw [toFloat_two32]
    exact floor_natCast (by omega) 32
  have hrest : h.sub (lo * m + d : Nat) (h.mul ((lo * m + d) / 2 ^ 32 : Nat) two32)
      = (lo * m + d - (lo * m + d) / 2 ^ 32 * 2 ^ 32 : Nat) := by
    rw [htwo, mul_natCast h (by omega), sub_natCast h (by omega) (by omega)]
  -- the high word in two halves
  have hnewLow : h.add (h.mul (h.and hi 0xFFFF) m) ((lo * m + d) / 2 ^ 32 : Nat)
      = (hi % 2 ^ 16 * m + (lo * m + d) / 2 ^ 32 : Nat) := by
    rw [and_natCast, mul_natCast h (by omega), add_natCast h (by omega)]
  have hfloor : ⌊Host.fdiv (Host.toFloat (hi % 2 ^ 16 * m + (lo * m + d) / 2 ^ 32 : Nat)) 65536⌋
      = ((hi % 2 ^ 16 * m + (lo * m + d) / 2 ^ 32) / 2 ^ 16 : Nat) := by
    rw [hfloat]
    exact floor_natCast (by omega) 16
  have hnewHigh : h.and (h.add (h.mul (h.shiftRightZfBy 16 hi) m)
      ((hi % 2 ^ 16 * m + (lo * m + d) / 2 ^ 32) / 2 ^ 16 : Nat)) 0xFFFF
      = ((hi / 2 ^ 16 * m + (hi % 2 ^ 16 * m + (lo * m + d) / 2 ^ 32) / 2 ^ 16) % 2 ^ 16
          : Nat) := by
    rw [shift_natCast h hhi, mul_natCast h (by omega), add_natCast h (by omega), and_natCast]
  have hword : ∀ x y : Nat, x < 2 ^ 16 → u32 h (h.add (h.mul x 65536) (h.and y 0xFFFF))
      = ((x * 65536 + y % 2 ^ 16) % 2 ^ 32 : Nat) := by
    intro x y hx
    have hmul : h.mul x 65536 = (x * 65536 : Nat) := mul_natCast h (b := 65536) (by omega)
    rw [and_natCast, hmul, add_natCast h (by omega), u32_eq]
    push_cast
    rfl
  have hlow16 : ∀ n : Nat, n &&& 0xFFFF = n % 2 ^ 16 := fun n => Nat.and_two_pow_sub_one_eq_mod n 16
  have hlow32 : ∀ n : Nat, n &&& 0xFFFFFFFF = n % 2 ^ 32 := fun n =>
    Nat.and_two_pow_sub_one_eq_mod n 32
  rw [mulAdd, ofNats]
  dsimp only
  rw [hfull, hcarry, hrest, hnewLow, hfloor, hnewHigh, hword _ _ (Nat.mod_lt _ (by norm_num))]
  rw [ofNats, DataInt64.mulAdd]
  simp only [hlow16, hlow32, Nat.shiftRight_eq_div_pow, DataInt64.two32]
  rfl

/-! ## The `Int` of two words -/

/-- The signed number of two words. -/
def signed (hi lo : Nat) : Int := wrap ((hi * 2 ^ 32 + lo : Nat) : Int)

theorem signed_cases {hi lo : Nat} (hhi : hi < 2 ^ 32) (hlo : lo < 2 ^ 32) :
    signed hi lo = (if 0x80000000 ≤ (hi : Int) then (hi : Int) - two32 else (hi : Int)) * 2 ^ 32
      + lo := by
  rw [signed, wrap, Int.bmod, two32]
  split_ifs <;> omega

theorem fromWords_native {hi lo : Nat} (hhi : hi < 2 ^ 32) (hlo : lo < 2 ^ 32) :
    fromWords .native hi lo = some (signed hi lo) := by
  have hhost : hostIs64 .native = true := by decide
  have hcount : Host.native.count 32 = 32 := by decide
  have hbits : (BitVec.ofInt Host.native.width (Host.native.shiftLeftBy 32 hi) |||
      BitVec.ofInt Host.native.width lo).toNat = hi * 2 ^ 32 + lo := by
    have hlt : hi * 2 ^ 32 < 2 ^ Host.native.width := by
      show _ < 2 ^ 64
      omega
    rw [BitVec.toNat_or]
    show Host.native.word _ ||| Host.native.word _ = _
    rw [Host.word_shiftLeftBy, hcount, Host.word_of_lt _ hhi, Host.word_of_lt _ hlo,
      Nat.mod_eq_of_lt hlt, ← Nat.shiftLeft_eq, Nat.shiftLeft_add_eq_or_of_lt hlo]
  rw [fromWords, if_pos hhost, Host.or, BitVec.toInt_eq_toNat_bmod, hbits]
  rfl

/-- What a double makes of a signed number of 64 bits. -/
theorem keep_signed {v : Int} (hlow : -2 ^ 63 ≤ v) (hhigh : v < 2 ^ 63) :
    ∃ w, Host.javascript.keep v = w ∧ Host.javascript.Holds w ∧ -2 ^ 63 ≤ w ∧ w < 2 ^ 64 ∧
      (Host.javascript.Holds v → w = v) ∧ (w % 2 ^ 64 = v % 2 ^ 64 → w = v) := by
  have hround := Double.floor_round_intCast v
  have habs : |(v : ℚ)| ≤ 2 ^ (63 : ℤ) := by
    rw [abs_le]
    constructor
    · exact_mod_cast hlow
    · exact_mod_cast hhigh.le
  have hbound : |⌊Double.round (v : ℚ)⌋| ≤ 2 ^ 63 := by
    have hle := Double.abs_round_le habs
    rw [← hround] at hle
    exact_mod_cast hle
  obtain ⟨hlow', hhigh'⟩ := abs_le.mp hbound
  have hexact : Host.javascript.Holds v → ⌊Double.round (v : ℚ)⌋ = v :=
    fun hv => Host.keep_of_holds (h := .javascript) hv
  refine ⟨⌊Double.round (v : ℚ)⌋, rfl, ?_, hlow', by omega, hexact, fun hmod => ?_⟩
  · show Double.IsDouble _
    rw [hround]
    exact Double.isDouble_round _
  -- only the least number is a whole `2 ^ 64` away from a double, and it is one
  · by_cases hleast : v = -2 ^ 63
    · refine hexact ?_
      have hd := Double.isDouble_mul_zpow (m := -1) (by norm_num) 63
      rw [hleast]
      show Double.IsDouble _
      norm_num at hd ⊢
      exact hd
    · omega

theorem fromWords_javascript {hi lo : Nat} (hhi : hi < 2 ^ 32) (hlo : lo < 2 ^ 32) :
    fromWords .javascript hi lo
      = if Host.javascript.Holds (signed hi lo) then some (signed hi lo) else none := by
  have hhost : ¬ hostIs64 .javascript = true := by decide
  have hsub : (if 0x80000000 ≤ (hi : Int) then Host.javascript.sub hi two32 else (hi : Int))
      = if 0x80000000 ≤ (hi : Int) then (hi : Int) - two32 else (hi : Int) := by
    split
    · exact Host.keep_of_holds (Host.holds_of_lt _ (by rw [two32]; omega) (by rw [two32]; omega))
    · rfl
  have hv := signed_cases hhi hlo
  generalize signed hi lo = v at hv ⊢
  rw [fromWords, if_neg hhost, hsub]
  obtain ⟨s, hs, hlow, hhigh, hsame⟩ : ∃ s : Int,
      (if 0x80000000 ≤ (hi : Int) then (hi : Int) - two32 else (hi : Int)) = s ∧
        -2 ^ 31 ≤ s ∧ s < 2 ^ 31 ∧ s % 2 ^ 32 = hi := by
    refine ⟨_, rfl, ?_⟩
    rw [two32]
    split <;> omega
  rw [hs] at hv ⊢
  obtain ⟨w, hkeep, hholds, hlow', hhigh', hexact, hmod⟩ :=
    keep_signed (v := v) (by omega) (by omega)
  have hvalue : Host.javascript.add (Host.javascript.mul s two32) lo = w := by
    rw [mul_two32 (abs_lt.mpr ⟨by omega, by omega⟩), Host.add, ← hv]
    exact hkeep
  -- the rounded value has the same words only if nothing was rounded
  have hpair : toWords .javascript w = ((hi : Int), (lo : Int)) ↔ w = v := by
    rw [toWords_spec hholds hlow' hhigh', Prod.mk.injEq]
    constructor
    · rintro ⟨hhi', hlo'⟩
      exact hmod (by omega)
    · intro heq
      rw [heq]
      constructor <;> omega
  dsimp only
  rw [hvalue, if_congr hpair rfl rfl]
  by_cases hd : Host.javascript.Holds v
  · rw [if_pos (hexact hd), if_pos hd, hexact hd]
  · have hne : w ≠ v := fun heq => hd (heq ▸ hholds)
    rw [if_neg hne, if_neg hd]

/-! ## Literals -/

/-- The text of an integer literal, of any length, and what it stands for. -/
inductive Denotes : Text → Nat → Prop where
  | decimal {ds : Text} (hds : ParseNumber.Digits ds) : Denotes ds (ParseNumber.valueFrom 10 0 ds)
  | hexadecimal {ds : Text} (hne : ds ≠ []) (hds : ∀ u ∈ ds, ParseNumber.IsHexDigit u) :
      Denotes (ascii "0x" ++ ds) (ParseNumber.valueFrom 16 0 ds)

theorem sub_digit (h : Host) {u : UInt16} (hu : ParseNumber.IsDigit u) :
    h.sub (u.toNat : Int) 48 = ParseNumber.digitValue u ∧ ParseNumber.digitValue u < 2 ^ 5 := by
  rw [← ParseNumber.sub_eq_digitValue hu]
  obtain ⟨hlow, hhigh⟩ := hu
  exact ⟨sub_natCast h (b := 48) hlow (by omega), by omega⟩

theorem hexValue_digit (h : Host) {u : UInt16} (hu : ParseNumber.IsHexDigit u) :
    hexValue h u.toNat = ParseNumber.digitValue u ∧ ParseNumber.digitValue u < 2 ^ 5 := by
  have hsub : ∀ b : Nat, b ≤ u.toNat → h.sub u.toNat b = (u.toNat - b : Nat) := by
    intro b hb
    have hlt := hu.lt
    exact sub_natCast h hb (by omega)
  rw [hexValue, ParseNumber.digitValue]
  rcases hu with ⟨hlow, hhigh⟩ | ⟨hlow, hhigh⟩ | ⟨hlow, hhigh⟩
  · rw [if_pos (by omega), if_pos hhigh]
    exact ⟨hsub 0x30 hlow, by omega⟩
  · rw [if_neg (by omega), if_neg (by omega), if_neg (by omega), if_neg (by omega)]
    exact ⟨hsub 0x57 (by omega), by omega⟩
  · rw [if_neg (by omega), if_pos (by omega), if_neg (by omega), if_pos (by omega)]
    exact ⟨hsub 0x37 (by omega), by omega⟩

/-- The words that the digits make, with natural numbers. -/
def digitWords (m : Nat) (words : Nat × Nat) (ds : Text) : Nat × Nat :=
  ds.foldl (fun acc u => DataInt64.mulAdd m (ParseNumber.digitValue u) acc) words

/-- Digit by digit, both hosts make the same words. -/
theorem foldl_digits (h : Host) {m : Nat} (hm : m = 10 ∨ m = 16) (value : Nat → Int) {ds : Text}
    (hdigit : ∀ u ∈ ds, value u.toNat = ParseNumber.digitValue u ∧
      ParseNumber.digitValue u < 2 ^ 5)
    (words : Nat × Nat) (hwords : words.1 < 2 ^ 32 ∧ words.2 < 2 ^ 32) :
    ds.foldl (fun acc u => mulAdd h m (value u.toNat) acc) (ofNats words)
        = ofNats (digitWords m words ds) ∧
      (digitWords m words ds).1 < 2 ^ 32 ∧ (digitWords m words ds).2 < 2 ^ 32 := by
  induction ds generalizing words with
  | nil => exact ⟨rfl, hwords⟩
  | cons u ds ih =>
    obtain ⟨hvalue, hlt⟩ := hdigit u (List.mem_cons_self ..)
    obtain ⟨hhi, hlo, -⟩ := ParseNumber.mulAdd_spec hm (ParseNumber.digitValue u) hwords
    have hstep : mulAdd h m (value u.toNat) (ofNats words)
        = ofNats (DataInt64.mulAdd m (ParseNumber.digitValue u) words) := by
      rw [hvalue]
      exact mulAdd_eq h (by omega) hlt hwords.1 hwords.2
    rw [List.foldl_cons, hstep]
    exact ih (fun v hv => hdigit v (List.mem_cons_of_mem u hv)) _ ⟨hhi, hlo⟩

/-- The words of a literal, the same on both hosts. -/
theorem exists_words {text : Text} {n : Nat} (h : Denotes text n) :
    ∃ hi lo : Nat, hi < 2 ^ 32 ∧ lo < 2 ^ 32 ∧ hi * 2 ^ 32 + lo = n % 2 ^ 64 ∧
      ∀ host, fromLiteral host text = fromWords host hi lo := by
  have hzero : ((0 : Int), (0 : Int)) = ofNats (0, 0) := rfl
  cases h with
  | decimal hds =>
    have hprefix : ¬ ascii "0x" <+: text := by
      intro hpre
      have hx : (120 : UInt16) ∈ text := hpre.subset (by decide)
      exact absurd (hds.2 120 hx) (by decide)
    have hwords := fun host => foldl_digits host (Or.inl rfl) (fun c => host.sub c 48)
      (fun u hu => sub_digit host (hds.2 u hu)) (0, 0) (by decide)
    obtain ⟨-, hhi, hlo⟩ := hwords .native
    refine ⟨_, _, hhi, hlo, ParseNumber.foldl_mulAdd (Or.inl rfl) text (by decide) rfl,
      fun host => ?_⟩
    rw [fromLiteral, if_neg hprefix,
      ParseNumber.chars_of_ascii fun u hu => (hds.2 u hu).isHexDigit.lt, List.foldl_map]
    have hfold := (hwords host).1
    rw [Nat.cast_ofNat] at hfold
    rw [hzero, hfold]
    rfl
  | @hexadecimal ds hne hds =>
    have hdrop : List.drop 2 (ascii "0x" ++ ds) = ds := rfl
    have hwords := fun host => foldl_digits host (Or.inr rfl) (hexValue host)
      (fun u hu => hexValue_digit host (hds u hu)) (0, 0) (by decide)
    obtain ⟨-, hhi, hlo⟩ := hwords .native
    refine ⟨_, _, hhi, hlo, ParseNumber.foldl_mulAdd (Or.inr rfl) ds (by decide) rfl,
      fun host => ?_⟩
    rw [fromLiteral, if_pos ⟨ds, rfl⟩, hdrop,
      ParseNumber.chars_of_ascii fun u hu => (hds u hu).lt, List.foldl_map]
    have hfold := (hwords host).1
    rw [Nat.cast_ofNat] at hfold
    rw [hzero, hfold]
    rfl

/-- The value of a literal is reduced modulo `2 ^ 64`, natively always, and under JavaScript where a
    double holds the result. -/
theorem fromLiteral_eq {text : Text} {n : Nat} (h : Denotes text n) :
    fromLiteral .native text = some (wrap n) ∧
      fromLiteral .javascript text
        = if Host.javascript.Holds (wrap n) then some (wrap n) else none := by
  obtain ⟨hi, lo, hhi, hlo, hvalue, heq⟩ := exists_words h
  have hsigned : signed hi lo = wrap n := by
    rw [signed, hvalue, wrap, wrap]
    push_cast
    exact Int.emod_bmod ..
  rw [heq, heq, fromWords_native hhi hlo, fromWords_javascript hhi hlo, hsigned]
  exact ⟨rfl, rfl⟩

/-- Sixteen digits `F` are all ones. -/
theorem fromLiteral_allOnes :
    fromLiteral .native (ascii "0x" ++ List.replicate 16 70) = some (-1) ∧
      fromLiteral .javascript (ascii "0x" ++ List.replicate 16 70) = some (-1) := by
  have hones : Denotes (ascii "0x" ++ List.replicate 16 70) _ :=
    .hexadecimal (by decide) fun u hu => by
      rw [List.eq_of_mem_replicate hu]
      decide
  have hminus : wrap (ParseNumber.valueFrom 16 0 (List.replicate 16 70)) = -1 := by decide
  have hholds : Host.javascript.Holds (-1) := Host.holds_of_lt _ (by norm_num) (by norm_num)
  obtain ⟨hnative, hjavascript⟩ := fromLiteral_eq hones
  rw [hminus] at hnative hjavascript
  rw [if_pos hholds] at hjavascript
  exact ⟨hnative, hjavascript⟩

end Int64Literal

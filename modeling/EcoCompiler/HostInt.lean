import EcoCompiler.Double

/-! # The two hosts of the compiler

    The compiler runs natively, where `Int` is a signed 64-bit word and `Bitwise`
    works on all of it, or as JavaScript, where `Int` is a whole double and `Bitwise`
    works on 32-bit words.

    * `word`: the bits that `Bitwise` sees of an `Int`, with one lemma for each
      operation;
    * `shiftRightZfBy_of_lt`, `and_mask`: the operations whose value, and not only its
      bits, is the same on both hosts. -/

/-- Where the compiler runs. -/
inductive Host where
  | native
  | javascript
deriving DecidableEq, Repr

namespace Host

/-- The width of the words of `Bitwise`. -/
def width : Host → Nat
  | native => 64
  | javascript => 32

/-- The host holds `x` exactly. -/
def Holds : Host → Int → Prop
  | native, x => -2 ^ 63 ≤ x ∧ x < 2 ^ 63
  | javascript, x => Double.IsDouble x

instance (h : Host) (x : Int) : Decidable (h.Holds x) :=
  match h with
  | native => inferInstanceAs (Decidable (_ ∧ _))
  | javascript => inferInstanceAs (Decidable (Double.IsDouble x))

/-- What the host keeps of the exact result of an arithmetic operation. -/
def keep : Host → Int → Int
  | native, x => (BitVec.ofInt 64 x).toInt
  | javascript, x => ⌊Double.round x⌋

/-- `+`. -/
def add (h : Host) (a b : Int) : Int := h.keep (a + b)
/-- `-`. -/
def sub (h : Host) (a b : Int) : Int := h.keep (a - b)
/-- `*`. -/
def mul (h : Host) (a b : Int) : Int := h.keep (a * b)

/-- `toFloat`. -/
def toFloat (x : Int) : ℚ := Double.round x

/-- `(/)`. -/
def fdiv (a b : ℚ) : ℚ := Double.round (a / b)

/-! ## `Bitwise` -/

/-- `Bitwise.and`. -/
def and (h : Host) (a b : Int) : Int :=
  (BitVec.ofInt h.width a &&& BitVec.ofInt h.width b).toInt

/-- `Bitwise.or`. -/
def or (h : Host) (a b : Int) : Int :=
  (BitVec.ofInt h.width a ||| BitVec.ofInt h.width b).toInt

/-- `Bitwise.xor`. -/
def xor (h : Host) (a b : Int) : Int :=
  (BitVec.ofInt h.width a ^^^ BitVec.ofInt h.width b).toInt

/-- The shift count: its low 6 bits natively, its low 5 under JavaScript. -/
def count (h : Host) (offset : Int) : Nat := (offset % h.width).toNat

/-- `Bitwise.shiftLeftBy`. -/
def shiftLeftBy (h : Host) (offset a : Int) : Int :=
  (BitVec.ofInt h.width a <<< h.count offset).toInt

/-- `Bitwise.shiftRightBy`. -/
def shiftRightBy (h : Host) (offset a : Int) : Int :=
  ((BitVec.ofInt h.width a).sshiftRight (h.count offset)).toInt

/-- `Bitwise.shiftRightZfBy`: the kernel's unsigned result is read as an `Int`, which
    natively is a signed word again. -/
def shiftRightZfBy (h : Host) (offset a : Int) : Int :=
  let shifted := BitVec.ofInt h.width a >>> h.count offset
  match h with
  | native => shifted.toInt
  | javascript => shifted.toNat

/-! ## The bits of an `Int` -/

/-- The bits `Bitwise` sees, as an unsigned number. -/
def word (h : Host) (x : Int) : Nat := (BitVec.ofInt h.width x).toNat

theorem word_eq (h : Host) (x : Int) : (h.word x : Int) = x % 2 ^ h.width := by
  rw [word, BitVec.toNat_ofInt, Int.toNat_of_nonneg (Int.emod_nonneg _ (by positivity))]
  push_cast
  rfl

private theorem word_toInt (h : Host) (x : BitVec h.width) : h.word x.toInt = x.toNat := by
  rw [word, BitVec.ofInt_toInt]

@[simp] theorem word_and (h : Host) (a b : Int) :
    h.word (h.and a b) = h.word a &&& h.word b := by
  rw [and, word_toInt, BitVec.toNat_and]
  rfl

@[simp] theorem word_or (h : Host) (a b : Int) :
    h.word (h.or a b) = h.word a ||| h.word b := by
  rw [or, word_toInt, BitVec.toNat_or]
  rfl

@[simp] theorem word_xor (h : Host) (a b : Int) :
    h.word (h.xor a b) = h.word a ^^^ h.word b := by
  rw [xor, word_toInt, BitVec.toNat_xor]
  rfl

@[simp] theorem word_shiftLeftBy (h : Host) (offset a : Int) :
    h.word (h.shiftLeftBy offset a) = h.word a * 2 ^ h.count offset % 2 ^ h.width := by
  rw [shiftLeftBy, word_toInt, BitVec.toNat_shiftLeft, Nat.shiftLeft_eq]
  rfl

@[simp] theorem word_shiftRightZfBy (h : Host) (offset a : Int) :
    h.word (h.shiftRightZfBy offset a) = h.word a / 2 ^ h.count offset := by
  have hs : (BitVec.ofInt h.width a >>> h.count offset).toNat
      = h.word a / 2 ^ h.count offset := by
    rw [BitVec.toNat_ushiftRight, Nat.shiftRight_eq_div_pow]
    rfl
  cases h with
  | native =>
    rw [← hs]
    exact word_toInt native _
  | javascript =>
    rw [← hs]
    show (BitVec.ofInt 32 ((BitVec.ofInt 32 a >>> count javascript offset).toNat : Int)).toNat = _
    rw [BitVec.ofInt_natCast, BitVec.ofNat_toNat, BitVec.setWidth_eq]
    rfl

/-- The count of a shift by less than 32 is that number. -/
theorem count_of_lt (h : Host) {k : Nat} (hk : k < 32) : h.count k = k := by
  cases h <;> simp only [count, width] <;> omega

/-- The word of a number below `2 ^ 32` is that number. -/
theorem word_of_lt (h : Host) {n : Nat} (hn : n < 2 ^ 32) : h.word n = n := by
  have := h.word_eq n
  cases h <;> simp only [width] at this <;> omega

/-- Both hosts see the same low 32 bits. -/
theorem word_mod (h : Host) (x : Int) : ((h.word x % 2 ^ 32 : Nat) : Int) = x % 2 ^ 32 := by
  have := h.word_eq x
  cases h <;> simp only [width] at this <;> omega

/-- A word below `2 ^ 31` on either host, and any 32-bit word natively, is a number of
    its own. -/
theorem shiftRightZfBy_of_lt (h : Host) (offset a : Int)
    (hlt : h.word a / 2 ^ h.count offset < 2 ^ 32) :
    h.shiftRightZfBy offset a = (h.word a / 2 ^ h.count offset : Nat) := by
  have hs : (BitVec.ofInt h.width a >>> h.count offset).toNat
      = h.word a / 2 ^ h.count offset := by
    rw [BitVec.toNat_ushiftRight, Nat.shiftRight_eq_div_pow]
    rfl
  cases h with
  | native =>
    show BitVec.toInt _ = _
    rw [BitVec.toInt_eq_toNat_of_lt, hs]
    rw [hs]
    show 2 * _ < 2 ^ 64
    omega
  | javascript =>
    show ((BitVec.toNat _ : Nat) : Int) = _
    rw [hs]

/-- A mask of low bits keeps the number they make. -/
theorem and_mask (h : Host) {k : Nat} (hk : k < 32) (x : Int) :
    h.and x ((2 ^ k - 1 : Nat) : Int) = x % 2 ^ k := by
  have hlt : 2 ^ k ≤ 2 ^ 31 := Nat.pow_le_pow_right (by norm_num) (by omega)
  have hmask : h.word ((2 ^ k - 1 : Nat) : Int) = 2 ^ k - 1 := h.word_of_lt (by omega)
  have hbits : (BitVec.ofInt h.width x &&& BitVec.ofInt h.width ((2 ^ k - 1 : Nat) : Int)).toNat
      = h.word x % 2 ^ k := by
    rw [BitVec.toNat_and]
    show h.word x &&& h.word _ = _
    rw [hmask, Nat.and_two_pow_sub_one_eq_mod]
  have hmod : h.word x % 2 ^ k < 2 ^ k := Nat.mod_lt _ (Nat.two_pow_pos k)
  have hwidth : 2 ^ 32 ≤ 2 ^ h.width := by cases h <;> norm_num [width]
  have hdvd : (2 : Int) ^ k ∣ 2 ^ h.width :=
    pow_dvd_pow 2 (by cases h <;> simp only [width] <;> omega)
  rw [and, BitVec.toInt_eq_toNat_of_lt (by rw [hbits]; omega), hbits]
  push_cast
  rw [word_eq, Int.emod_emod_of_dvd _ hdvd]

/-! ## Arithmetic -/

theorem keep_of_holds {h : Host} {x : Int} (hx : h.Holds x) : h.keep x = x := by
  cases h with
  | native =>
    obtain ⟨h₁, h₂⟩ := hx
    simp only [keep, BitVec.toInt_ofInt, Int.bmod]
    omega
  | javascript =>
    show ⌊Double.round x⌋ = x
    rw [show Double.round x = x from hx, Int.floor_intCast]

/-- Every host holds the integers below `2 ^ 53`. -/
theorem holds_of_lt (h : Host) {x : Int} (h₁ : -2 ^ 53 < x) (h₂ : x < 2 ^ 53) :
    h.Holds x := by
  cases h with
  | native => exact ⟨by omega, by omega⟩
  | javascript => exact Double.isDouble_intCast (abs_lt.mpr ⟨h₁, h₂⟩)

/-- The division by a power of two moves the exponent only, and the floor is exact. -/
theorem floor_fdiv {value : Int} (hv : Double.IsDouble (value : ℚ)) (k : Nat) :
    ⌊fdiv (toFloat value) (2 ^ k)⌋ = value / 2 ^ k := by
  have hdiv : Double.IsDouble ((value : ℚ) / 2 ^ k) := by
    simpa [div_eq_mul_inv, zpow_neg] using hv.mul_zpow (-k)
  have hq : fdiv (toFloat value) (2 ^ k) = (value : ℚ) / 2 ^ k := by
    rw [fdiv, toFloat, show Double.round (value : ℚ) = value from hv]
    exact hdiv
  have hfloor := Rat.floor_intCast_div_natCast value (2 ^ k)
  rw [hq]
  push_cast at hfloor
  exact hfloor

end Host

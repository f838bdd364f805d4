import Mathlib

/-! # The PrefixVarInt format, independent of any program

    A little-endian integer of one to nine bytes whose first byte gives its length: the
    trailing zero bits of the first byte, plus one.  The bits above the lowest set bit
    are the value; after a first byte of zero the value is the next eight bytes.

    * `ofLittleEndian_littleEndian`, `littleEndian_append`: numbers as bytes;
    * `decode_form`: the form of `k ≤ 8` bytes decodes to its value;
    * `decode_nine`: the form of nine bytes decodes to its value;
    * `zigzagDecode_zigzag`: the zigzag map is undone. -/

namespace PrefixVarInt

/-! ## Little-endian numbers -/

/-- The low `k` bytes of `n`, lowest first. -/
def littleEndian : Nat → Nat → List UInt8
  | 0, _ => []
  | k + 1, n => UInt8.ofNat n :: littleEndian k (n / 256)

/-- The number whose bytes are `bytes`, lowest first. -/
def ofLittleEndian : List UInt8 → Nat
  | [] => 0
  | b :: bs => b.toNat + 256 * ofLittleEndian bs

@[simp] theorem littleEndian_length (k n : Nat) : (littleEndian k n).length = k := by
  induction k generalizing n with
  | zero => rfl
  | succ k ih => rw [littleEndian, List.length_cons, ih]

theorem ofLittleEndian_littleEndian (k n : Nat) :
    ofLittleEndian (littleEndian k n) = n % 256 ^ k := by
  induction k generalizing n with
  | zero => rw [littleEndian, ofLittleEndian, pow_zero, Nat.mod_one]
  | succ k ih =>
    have hmod : n % 256 ^ (k + 1) = n % 256 + 256 * (n / 256 % 256 ^ k) := by
      rw [pow_succ', Nat.mod_mul]
    rw [littleEndian, ofLittleEndian, ih, UInt8.toNat_ofNat', hmod]

theorem littleEndian_append (j k n : Nat) :
    littleEndian (j + k) n = littleEndian j n ++ littleEndian k (n / 256 ^ j) := by
  induction j generalizing n with
  | zero => rw [Nat.zero_add, littleEndian, pow_zero, Nat.div_one, List.nil_append]
  | succ j ih =>
    rw [Nat.add_right_comm, littleEndian, littleEndian, ih, Nat.div_div_eq_div_mul,
      ← pow_succ', List.cons_append]

/-- Only the low `k` bytes are written. -/
theorem littleEndian_mod (k n : Nat) : littleEndian k (n % 256 ^ k) = littleEndian k n := by
  induction k generalizing n with
  | zero => rfl
  | succ k ih =>
    have hq : n % 256 ^ (k + 1) / 256 = n / 256 % 256 ^ k := by
      rw [pow_succ', Nat.mod_mul_right_div_self]
    rw [littleEndian, littleEndian, hq, ih]
    congr 1
    apply UInt8.toNat_inj.mp
    rw [UInt8.toNat_ofNat', UInt8.toNat_ofNat']
    exact Nat.mod_mod_of_dvd n (Dvd.intro_left (256 ^ k) (pow_succ 256 k).symm)

/-! ## Decoding -/

/-- The number of trailing zero bits of a byte, 8 for zero. -/
def trailingZeros (b : UInt8) : Nat :=
  ((List.range 8).find? b.toNat.testBit).getD 8

/-- Reads one PrefixVarInt: its value and the bytes after it, or `none` when the bytes
    end too early. -/
def decode : List UInt8 → Option (Nat × List UInt8)
  | [] => none
  | b :: bytes =>
    let zeros := trailingZeros b
    if bytes.length < zeros then none
    else if b = 0 then some (ofLittleEndian (bytes.take 8), bytes.drop 8)
    else some (ofLittleEndian (b :: bytes.take zeros) / 2 ^ (zeros + 1), bytes.drop zeros)

/-- The form of `k` bytes, for `k` from 1 to 8: the value above a set bit and `k - 1`
    zeros. -/
def form (k v : Nat) : List UInt8 := littleEndian k (v * 2 ^ k + 2 ^ (k - 1))

/-- The form of nine bytes. -/
def nine (v : Nat) : List UInt8 := 0 :: littleEndian 8 v

@[simp] theorem form_length (k v : Nat) : (form k v).length = k :=
  littleEndian_length k _

@[simp] theorem nine_length (v : Nat) : (nine v).length = 9 := by
  rw [nine, List.length_cons, littleEndian_length]

/-- The first byte of a form tells its length. -/
theorem trailingZeros_form {k : Nat} (hk : k < 8) (v : Nat) :
    trailingZeros (UInt8.ofNat (v * 2 ^ (k + 1) + 2 ^ k)) = k := by
  have hodd : v * 2 ^ (k + 1) + 2 ^ k = 2 ^ k * (2 * v + 1) := by ring
  have hbit : ∀ j, j < 8 → (UInt8.ofNat (v * 2 ^ (k + 1) + 2 ^ k)).toNat.testBit j
      = (decide (k ≤ j) && (2 * v + 1).testBit (j - k)) := by
    intro j hj
    rw [UInt8.toNat_ofNat', Nat.testBit_mod_two_pow, hodd, Nat.testBit_two_pow_mul]
    simp [hj]
  have hfind : (List.range 8).find? (UInt8.ofNat (v * 2 ^ (k + 1) + 2 ^ k)).toNat.testBit
      = some k := by
    rw [List.find?_range_eq_some]
    refine ⟨?_, List.mem_range.mpr hk, ?_⟩
    · rw [hbit k hk, Nat.sub_self, Nat.testBit_zero]
      simp
    · intro j hj
      rw [hbit j (by omega)]
      simp [hj]
  rw [trailingZeros, hfind, Option.getD_some]

/-- The form of `k` bytes holds every value of `7 * k` bits. -/
theorem decode_form {k v : Nat} (hk : k < 8) (hv : v < 2 ^ (7 * (k + 1)))
    (rest : List UInt8) : decode (form (k + 1) v ++ rest) = some (v, rest) := by
  have hzeros := trailingZeros_form hk v
  -- value and marker fit the bytes of the form
  have hlt : v * 2 ^ (k + 1) + 2 ^ k < 256 ^ (k + 1) := by
    calc v * 2 ^ (k + 1) + 2 ^ k < (v + 1) * 2 ^ (k + 1) := by
          have : 2 ^ k < 2 ^ (k + 1) := Nat.pow_lt_pow_right (by norm_num) (by omega)
          rw [add_mul]
          omega
      _ ≤ 2 ^ (7 * (k + 1)) * 2 ^ (k + 1) := Nat.mul_le_mul_right _ hv
      _ = 256 ^ (k + 1) := by
          rw [← pow_add, show (256 : Nat) = 2 ^ 8 from rfl, ← pow_mul]
          congr 1
          omega
  generalize hn : v * 2 ^ (k + 1) + 2 ^ k = n at hzeros hlt
  have hform : form (k + 1) v = UInt8.ofNat n :: littleEndian k (n / 256) := by
    rw [form, Nat.add_sub_cancel, hn, littleEndian]
  have hne : UInt8.ofNat n ≠ 0 := by
    intro h0
    rw [h0] at hzeros
    have : trailingZeros 0 = 8 := rfl
    omega
  have hvalue : n / 2 ^ (k + 1) = v := by
    have : 2 ^ k < 2 ^ (k + 1) := Nat.pow_lt_pow_right (by norm_num) (by omega)
    rw [← hn, Nat.add_div_of_dvd_right (Dvd.intro_left v rfl), Nat.mul_div_cancel _ (by positivity),
      Nat.div_eq_of_lt this, Nat.add_zero]
  have hnum : ofLittleEndian (UInt8.ofNat n :: littleEndian k (n / 256)) = n := by
    have := ofLittleEndian_littleEndian (k + 1) n
    rwa [littleEndian, Nat.mod_eq_of_lt hlt] at this
  have htake : (littleEndian k (n / 256) ++ rest).take k = littleEndian k (n / 256) :=
    List.take_left' (littleEndian_length k _)
  have hdrop : (littleEndian k (n / 256) ++ rest).drop k = rest :=
    List.drop_left' (littleEndian_length k _)
  rw [hform, List.cons_append, decode]
  simp only [hzeros, htake, hdrop, hnum, hvalue]
  rw [if_neg, if_neg hne]
  rw [List.length_append, littleEndian_length]
  omega

/-- The form of nine bytes holds every value of 64 bits. -/
theorem decode_nine {v : Nat} (hv : v < 2 ^ 64) (rest : List UInt8) :
    decode (nine v ++ rest) = some (v, rest) := by
  have hzeros : trailingZeros 0 = 8 := rfl
  have hmod : v % 256 ^ 8 = v := Nat.mod_eq_of_lt (by norm_num; omega)
  rw [nine, List.cons_append, decode]
  simp only [hzeros]
  rw [if_neg, if_pos trivial, List.take_left' (littleEndian_length 8 v),
    List.drop_left' (littleEndian_length 8 v), ofLittleEndian_littleEndian, hmod]
  rw [List.length_append, littleEndian_length]
  omega

/-! ## Zigzag -/

/-- Zigzag encoding: `0, -1, 1, -2, 2` become `0, 1, 2, 3, 4`. -/
def zigzag (v : Int) : Nat := if 0 ≤ v then (2 * v).toNat else (-2 * v - 1).toNat

/-- Undoes `zigzag`. -/
def zigzagDecode (n : Nat) : Int := if n % 2 = 0 then n / 2 else -((n + 1) / 2)

theorem zigzagDecode_zigzag (v : Int) : zigzagDecode (zigzag v) = v := by
  rw [zigzagDecode, zigzag]
  split <;> split <;> omega

end PrefixVarInt

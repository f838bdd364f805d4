import EcoCompiler.Abnf
import EcoCompiler.HostCheck

/-! # The grammar of a Host value

    The rules of RFC 3986, with the zone id of RFC 6874, under their names there.

    * `ipv6Address` — the nine alternatives, and `mem_ipv6Address`, all but the first of them
      as two runs of groups around a gap;
    * `host` — what a Host value may be. -/

namespace HostCheck

open Abnf Computability

/-! ## Characters -/

/-- `DIGIT`. -/
def Digit (c : UInt8) : Prop := 0x30 ≤ c.toNat ∧ c.toNat ≤ 0x39

/-- `ALPHA`. -/
def Alpha (c : UInt8) : Prop :=
  (0x41 ≤ c.toNat ∧ c.toNat ≤ 0x5A) ∨ (0x61 ≤ c.toNat ∧ c.toNat ≤ 0x7A)

/-- `HEXDIG`, in either case. -/
def HexDig (c : UInt8) : Prop :=
  Digit c ∨ (0x41 ≤ c.toNat ∧ c.toNat ≤ 0x46) ∨ (0x61 ≤ c.toNat ∧ c.toNat ≤ 0x66)

/-- `unreserved`. -/
def Unreserved (c : UInt8) : Prop :=
  Alpha c ∨ Digit c ∨ c ∈ [ch '-', ch '.', ch '_', ch '~']

/-- `sub-delims`. -/
def SubDelim (c : UInt8) : Prop :=
  c ∈ [ch '!', ch '$', ch '&', ch (Char.ofNat 39), ch '(', ch ')', ch '*', ch '+', ch ',', ch ';',
    ch '=']

/-! ## Rules -/

/-- The characters of a text. -/
def lit (text : List Char) : Language UInt8 := {text.map fun c => ch c}

@[simp] theorem cons_mem_lit_mul {t : Char} {text : List Char} {L : Language UInt8} {c : UInt8}
    {x : Bytes} : c :: x ∈ lit (t :: text) * L ↔ c = ch t ∧ x ∈ lit text * L := by
  rw [lit, lit, mem_singleton_mul, mem_singleton_mul]
  constructor
  · rintro ⟨y, hy, heq⟩
    obtain ⟨rfl, rfl⟩ := List.cons.inj heq
    exact ⟨rfl, y, hy, rfl⟩
  · rintro ⟨rfl, y, hy, rfl⟩
    exact ⟨y, hy, rfl⟩

@[simp] theorem nil_mem_lit_mul {t : Char} {text : List Char} {L : Language UInt8} :
    [] ∈ lit (t :: text) * L ↔ False := by
  simp [lit, mem_singleton_mul]

@[simp] theorem lit_nil_mul (L : Language UInt8) : lit [] * L = L := one_mul L

/-- A word of a rule before a character. -/
theorem mem_mul_lit_mul {L M : Language UInt8} {t : Char} {x : Bytes} :
    x ∈ L * (lit [t] * M) ↔ ∃ a ∈ L, ∃ b ∈ M, x = a ++ ch t :: b := by
  rw [Language.mem_mul]
  constructor
  · rintro ⟨a, ha, y, hy, rfl⟩
    obtain ⟨b, hb, rfl⟩ := mem_singleton_mul.mp hy
    exact ⟨a, ha, b, hb, rfl⟩
  · rintro ⟨a, ha, b, hb, rfl⟩
    exact ⟨a, ha, ch t :: b, mem_singleton_mul.mpr ⟨b, hb, rfl⟩, rfl⟩

/-- `pct-encoded`. -/
def pctEncoded : Language UInt8 := lit ['%'] * sat HexDig * sat HexDig

/-- Characters of a class and percent escapes. -/
theorem cons_mem_escaped {p : UInt8 → Prop} {c : UInt8} {x : Bytes} :
    c :: x ∈ (sat p + pctEncoded)∗ ↔ (p c ∧ x ∈ (sat p + pctEncoded)∗) ∨
      (c = ch '%' ∧ ∃ a b y, x = a :: b :: y ∧ HexDig a ∧ HexDig b ∧
        y ∈ (sat p + pctEncoded)∗) := by
  rw [cons_mem_kstar, add_mul, Language.mem_add, cons_mem_sat_mul]
  generalize (sat p + pctEncoded)∗ = K
  rw [pctEncoded, mul_assoc, mul_assoc, cons_mem_lit_mul, lit_nil_mul]
  refine or_congr Iff.rfl (and_congr Iff.rfl ?_)
  match x with
  | [] => simp
  | [a] => simp
  | a :: b :: y => simp

section

variable {p : UInt8 → Prop} (hp : ¬ p (ch '%'))

include hp

theorem pct_mem_escaped {a b : UInt8} {x : Bytes} :
    ch '%' :: a :: b :: x ∈ (sat p + pctEncoded)∗ ↔
      (HexDig a ∧ HexDig b) ∧ x ∈ (sat p + pctEncoded)∗ := by
  rw [cons_mem_escaped]
  constructor
  · rintro (⟨h, -⟩ | ⟨-, _, _, _, heq, ha, hb, hx⟩)
    · exact absurd h hp
    · obtain ⟨rfl, htail⟩ := List.cons.inj heq
      obtain ⟨rfl, rfl⟩ := List.cons.inj htail
      exact ⟨⟨ha, hb⟩, hx⟩
  · rintro ⟨⟨ha, hb⟩, hx⟩
    exact Or.inr ⟨rfl, a, b, x, rfl, ha, hb, hx⟩

theorem pct_notMem_escaped {x : Bytes} (hx : ∀ a b t, x = a :: b :: t → False) :
    ch '%' :: x ∉ (sat p + pctEncoded)∗ := by
  rw [cons_mem_escaped]
  rintro (⟨h, -⟩ | ⟨-, a, b, t, heq, -⟩)
  · exact hp h
  · exact hx a b t heq

end

theorem char_mem_escaped {p : UInt8 → Prop} {c : UInt8} (hc : c ≠ ch '%') {x : Bytes} :
    c :: x ∈ (sat p + pctEncoded)∗ ↔ p c ∧ x ∈ (sat p + pctEncoded)∗ := by
  rw [cons_mem_escaped]
  refine or_iff_left ?_
  rintro ⟨h, -⟩
  exact hc h

/-- `dec-octet`: a number up to 255, without leading zeros. -/
def decOctet : Language UInt8 :=
  sat Digit + sat (fun c => 0x31 ≤ c.toNat ∧ c.toNat ≤ 0x39) * sat Digit +
    lit ['1'] * sat Digit ^ 2 +
    lit ['2'] * sat (fun c => 0x30 ≤ c.toNat ∧ c.toNat ≤ 0x34) * sat Digit +
    lit ['2', '5'] * sat fun c => 0x30 ≤ c.toNat ∧ c.toNat ≤ 0x35

/-- `IPv4address`. -/
def ipv4Address : Language UInt8 :=
  decOctet * lit ['.'] * decOctet * lit ['.'] * decOctet * lit ['.'] * decOctet

/-- `h16`. -/
def h16 : Language UInt8 := repeated 1 4 (sat HexDig)

/-- A group and the colon after it. -/
def h16Colon : Language UInt8 := h16 * lit [':']

/-- `ls32`: the last 32 bits of an address. -/
def ls32 : Language UInt8 := h16 * lit [':'] * h16 + ipv4Address

/-- `IPv6address`: eight groups, a run of which `::` may stand for. -/
def ipv6Address : Language UInt8 :=
  h16Colon ^ 6 * ls32 +
  lit [':', ':'] * h16Colon ^ 5 * ls32 +
  optional h16 * lit [':', ':'] * h16Colon ^ 4 * ls32 +
  optional (repeated 0 1 h16Colon * h16) * lit [':', ':'] * h16Colon ^ 3 * ls32 +
  optional (repeated 0 2 h16Colon * h16) * lit [':', ':'] * h16Colon ^ 2 * ls32 +
  optional (repeated 0 3 h16Colon * h16) * lit [':', ':'] * h16 * lit [':'] * ls32 +
  optional (repeated 0 4 h16Colon * h16) * lit [':', ':'] * ls32 +
  optional (repeated 0 5 h16Colon * h16) * lit [':', ':'] * h16 +
  optional (repeated 0 6 h16Colon * h16) * lit [':', ':']

/-- `ZoneID`. -/
def zoneId : Language UInt8 := some1 (sat Unreserved + pctEncoded)

/-- `IPv6addrz`. -/
def ipv6AddrZ : Language UInt8 := ipv6Address * lit ['%', '2', '5'] * zoneId

/-- `IPvFuture`. -/
def ipvFuture : Language UInt8 :=
  (lit ['v'] + lit ['V']) * some1 (sat HexDig) * lit ['.'] *
    some1 (sat Unreserved + sat SubDelim + lit [':'])

/-- `IP-literal`. -/
def ipLiteral : Language UInt8 := lit ['['] * (ipv6Address + ipv6AddrZ + ipvFuture) * lit [']']

/-- A registered name that is not empty. -/
def regName : Language UInt8 := some1 (sat Unreserved + pctEncoded + sat SubDelim)

/-- A port of at most five digits. -/
def port : Language UInt8 := repeated 0 5 (sat Digit)

/-- `Host`: a name or an address, and a port. -/
def host : Language UInt8 := (ipLiteral + regName) * optional (lit [':'] * port)

/-! ## Groups around a gap -/

/-- So many groups, none or more. -/
def left : ℕ → Language UInt8
  | 0 => 1
  | n + 1 => run h16 (ch ':') h16 n

/-- So many pieces, none or more, the last two of which may be an IPv4 address. -/
def right : ℕ → Language UInt8
  | 0 => 1
  | 1 => h16
  | m + 2 => run h16 (ch ':') ls32 m

theorem h16Colon_pow_mul (k : ℕ) (T : Language UInt8) :
    h16Colon ^ k * T = run h16 (ch ':') T k := rfl

/-- What may stand before a gap after which so many pieces are missing. -/
theorem mem_optional_groups {j : ℕ} {x : Bytes} :
    x ∈ optional (repeated 0 j h16Colon * h16) ↔ ∃ n ≤ j + 1, x ∈ left n := by
  rw [mem_optional, Language.mem_mul]
  constructor
  · rintro (rfl | ⟨a, ⟨k, -, hk, ha⟩, b, hb, rfl⟩)
    · exact ⟨0, Nat.zero_le _, rfl⟩
    · exact ⟨k + 1, Nat.succ_le_succ hk, Language.append_mem_mul ha hb⟩
  · rintro ⟨n, hn, hx⟩
    cases n with
    | zero => exact Or.inl hx
    | succ k =>
      obtain ⟨a, ha, b, hb, rfl⟩ := Language.mem_mul.mp hx
      exact Or.inr ⟨a, ⟨k, Nat.zero_le k, Nat.le_of_succ_le_succ hn, ha⟩, b, hb, rfl⟩

theorem mem_optional_h16 {x : Bytes} : x ∈ optional h16 ↔ ∃ n ≤ 1, x ∈ left n := by
  rw [mem_optional]
  constructor
  · rintro (rfl | hx)
    · exact ⟨0, Nat.zero_le 1, rfl⟩
    · refine ⟨1, le_rfl, ?_⟩
      rw [left, run_zero]
      exact hx
  · rintro ⟨n, hn, hx⟩
    interval_cases n
    · exact Or.inl hx
    · rw [left, run_zero] at hx
      exact Or.inr hx

/-- A gap with so many pieces after it, and groups before it so that some piece is missing. -/
theorem mem_gap {L : Language UInt8} {j m : ℕ} (hL : ∀ x, x ∈ L ↔ ∃ n ≤ j, x ∈ left n)
    (hj : j + m = 7) {x : Bytes} :
    x ∈ L * (lit [':', ':'] * right m) ↔
      ∃ n, n + m ≤ 7 ∧ x ∈ left n * (lit [':', ':'] * right m) := by
  rw [Language.mem_mul]
  simp only [hL]
  constructor
  · rintro ⟨a, ⟨n, hn, ha⟩, b, hb, rfl⟩
    exact ⟨n, by omega, Language.append_mem_mul ha hb⟩
  · rintro ⟨n, hn, hx⟩
    obtain ⟨a, ha, b, hb, rfl⟩ := Language.mem_mul.mp hx
    exact ⟨a, ⟨n, by omega, ha⟩, b, hb, rfl⟩

/-- An address is eight pieces, or two runs of at most seven together around a gap. -/
theorem mem_ipv6Address {x : Bytes} :
    x ∈ ipv6Address ↔ x ∈ run h16 (ch ':') ls32 6 ∨
      ∃ n m, n + m ≤ 7 ∧ x ∈ left n * (lit [':', ':'] * right m) := by
  have hnone : ∀ x : Bytes, x ∈ (1 : Language UInt8) ↔ ∃ n ≤ 0, x ∈ left n := by
    intro x
    constructor
    · intro hx
      exact ⟨0, le_rfl, hx⟩
    · rintro ⟨n, hn, hx⟩
      obtain rfl := Nat.le_zero.mp hn
      exact hx
  -- the rule of the grammar has one alternative for each number of groups after the gap
  have h7 := @mem_gap _ 0 7 hnone rfl x
  have h6 := @mem_gap _ 1 6 (fun x => mem_optional_h16) rfl x
  have h5 := @mem_gap _ 2 5 (fun x => mem_optional_groups) rfl x
  have h4 := @mem_gap _ 3 4 (fun x => mem_optional_groups) rfl x
  have h3 := @mem_gap _ 4 3 (fun x => mem_optional_groups) rfl x
  have h2 := @mem_gap _ 5 2 (fun x => mem_optional_groups) rfl x
  have h1 := @mem_gap _ 6 1 (fun x => mem_optional_groups) rfl x
  have h0 := @mem_gap _ 7 0 (fun x => mem_optional_groups) rfl x
  have hgaps : (∃ n m, n + m ≤ 7 ∧ x ∈ left n * (lit [':', ':'] * right m)) ↔
      ∃ m ≤ 7, ∃ n, n + m ≤ 7 ∧ x ∈ left n * (lit [':', ':'] * right m) := by
    constructor
    · rintro ⟨n, m, h, hx⟩
      exact ⟨m, by omega, n, h, hx⟩
    · rintro ⟨m, -, n, h, hx⟩
      exact ⟨n, m, h, hx⟩
  have hm : ∀ P : ℕ → Prop, (∃ m ≤ 7, P m) ↔
      P 7 ∨ P 6 ∨ P 5 ∨ P 4 ∨ P 3 ∨ P 2 ∨ P 1 ∨ P 0 := by
    intro P
    constructor
    · rintro ⟨m, hm, h⟩
      interval_cases m <;> simp [h]
    · rintro (h | h | h | h | h | h | h | h)
      all_goals exact ⟨_, by decide, h⟩
  rw [hgaps, hm, ← h7, ← h6, ← h5, ← h4, ← h3, ← h2, ← h1, ← h0, ipv6Address]
  simp only [right, ← h16Colon_pow_mul, Language.mem_add, one_mul, mul_one, pow_zero, pow_one,
    mul_assoc, or_assoc, h16Colon]

end HostCheck

import EcoCompiler.HostGrammar

/-! # The check accepts what the grammar generates

    * `validIpv4_iff`, `validIpv6_iff`, `validIpLiteral_iff` — the addresses;
    * `validHost_iff` — the values. -/

namespace HostCheck

open Abnf Computability

/-! ## Characters -/

theorem isDigit_iff (c : UInt8) : isDigit c = true ↔ Digit c := by
  rw [isDigit, Bool.and_eq_true, decide_eq_true_eq, decide_eq_true_eq]
  rfl

theorem isHex_iff (c : UInt8) : isHex c = true ↔ HexDig c := by
  rw [isHex, Bool.or_eq_true, Bool.or_eq_true, isDigit_iff, HexDig, or_assoc]
  simp

theorem isAlnum_iff (c : UInt8) : isAlnum c = true ↔ Alpha c ∨ Digit c := by
  rw [isAlnum, Bool.or_eq_true, Bool.or_eq_true, isDigit_iff, Alpha, or_assoc, Or.comm]
  simp

theorem isUnreserved_iff (c : UInt8) : isUnreserved c = true ↔ Unreserved c := by
  rw [isUnreserved, Bool.or_eq_true, isAlnum_iff, Unreserved, or_assoc]
  simp

/-- The loop over a name passes a byte that is unreserved or a sub-delimiter. -/
theorem isRegNameChar_iff (c : UInt8) : isRegNameChar c = true ↔ Unreserved c ∨ SubDelim c := by
  rw [isRegNameChar, Bool.or_eq_true, isAlnum_iff, Unreserved, SubDelim, or_assoc, or_assoc,
    or_assoc]
  simp [or_assoc]

/-! ## Substrings -/

/-- `find` answers the first place at or after `start` where the pattern stands. -/
theorem find_eq_some_iff {pat s : Bytes} {start i : ℕ} :
    find pat s start = some i ↔ start ≤ i ∧ i < s.length ∧ pat <+: s.drop i ∧
      ∀ j, start ≤ j → j < i → ¬ pat <+: s.drop j := by
  rw [find, List.find?_range'_eq_some, List.mem_range'_1]
  simp only [List.isPrefixOf_iff_prefix, Bool.not_eq_true', ← Bool.not_eq_true]
  constructor
  · rintro ⟨hpre, ⟨hle, hlt⟩, hfirst⟩
    exact ⟨hle, by omega, hpre, hfirst⟩
  · rintro ⟨hle, hlt, hpre, hfirst⟩
    exact ⟨hpre, ⟨hle, by omega⟩, hfirst⟩

/-- `find` answers nothing when the pattern stands nowhere from `start` on. -/
theorem find_eq_none_iff {pat s : Bytes} {start : ℕ} :
    find pat s start = none ↔ ∀ j, start ≤ j → j < s.length → ¬ pat <+: s.drop j := by
  rw [find, List.find?_range'_eq_none]
  simp only [List.isPrefixOf_iff_prefix, Bool.not_eq_true', ← Bool.not_eq_true]
  constructor
  · intro h j hle hlt
    exact h j hle (by omega)
  · intro h j hle hlt
    exact h j hle (by omega)

theorem singleton_prefix_drop {c : UInt8} {s : Bytes} {j : ℕ} :
    [c] <+: s.drop j ↔ s[j]? = some c := by
  rw [← List.head?_drop]
  cases s.drop j with
  | nil => simp
  | cons a t => simp [eq_comm]

theorem find_of_notMem {c : UInt8} {s : Bytes} (h : c ∉ s) : find [c] s 0 = none := by
  refine find_eq_none_iff.mpr fun j _ _ hpre => h ?_
  exact List.mem_of_getElem? (singleton_prefix_drop.mp hpre)

/-- The first separator of a string. -/
theorem find_append {c : UInt8} {l : Bytes} (r : Bytes) (h : c ∉ l) :
    find [c] (l ++ c :: r) 0 = some l.length := by
  refine find_eq_some_iff.mpr ⟨Nat.zero_le _, by simp, by simp, fun j _ hj hpre => h ?_⟩
  have hget := singleton_prefix_drop.mp hpre
  rw [List.getElem?_append_left hj] at hget
  exact List.mem_of_getElem? hget

/-- A string has a first separator, or none. -/
theorem split_cases (c : UInt8) (s : Bytes) : c ∉ s ∨ ∃ l r, s = l ++ c :: r ∧ c ∉ l := by
  by_cases h : c ∈ s
  · obtain ⟨l, r, rfl, hl⟩ := List.eq_append_cons_of_mem h
    exact Or.inr ⟨l, r, rfl, hl⟩
  · exact Or.inl h

theorem take_append_cons (l r : Bytes) (c : UInt8) : (l ++ c :: r).take l.length = l := by simp

theorem drop_append_cons (l r : Bytes) (c : UInt8) : (l ++ c :: r).drop (l.length + 1) = r := by
  rw [← List.drop_drop, List.drop_left]
  rfl

/-! ## IPv4 addresses -/

/-- The value of some digits after others. -/
def digitsValue (v : ℕ) (d : Bytes) : ℕ := d.foldl (fun v c => v * 10 + (c.toNat - 48)) v

/-- What an octet is: one to three digits without a leading zero, of a value of at most 255. -/
theorem mem_decOctet {d : Bytes} : d ∈ decOctet ↔ (∀ c ∈ d, Digit c) ∧ 1 ≤ d.length ∧
    d.length ≤ 3 ∧ digitsValue 0 d ≤ 255 ∧ (1 < d.length → d.head? ≠ some (ch '0')) := by
  have h0 (c : UInt8) : c = 48 ↔ c.toNat = 48 := UInt8.toNat_inj.symm
  have h1 (c : UInt8) : c = 49 ↔ c.toNat = 49 := UInt8.toNat_inj.symm
  have h2 (c : UInt8) : c = 50 ↔ c.toNat = 50 := UInt8.toNat_inj.symm
  have h5 (c : UInt8) : c = 53 ↔ c.toNat = 53 := UInt8.toNat_inj.symm
  simp only [decOctet, Language.mem_add, mul_assoc, pow_two]
  -- by the number of digits
  match d with
  | [] => simp
  | [a] =>
    simp [digitsValue, Digit]
    omega
  | [a, b] =>
    simp [digitsValue, Digit, h0]
    omega
  | [a, b, c] =>
    simp [digitsValue, Digit, h0, h1, h2, h5]
    omega
  | a :: b :: c :: e :: t => simp

/-- On digits that run to the loop's bound or to a byte that is no digit, the loop reads them all
    and leaves the rest. -/
theorem octetLoop_append {d : Bytes} (hd : ∀ c ∈ d, Digit c) {k v : ℕ} (t : Bytes)
    (hk : d.length = k ∨ d.length ≤ k ∧ ∀ c, t.head? = some c → ¬ Digit c) :
    octetLoop k v (d ++ t) = (digitsValue v d, t) := by
  induction d generalizing k v with
  | nil =>
    cases k with
    | zero => rfl
    | succ k =>
      have hstop := (hk.resolve_left (by simp)).2
      cases t with
      | nil => rfl
      | cons c t =>
        have hc := hstop c rfl
        rw [← isDigit_iff, Bool.not_eq_true] at hc
        simp [octetLoop, hc, digitsValue]
  | cons c d ih =>
    obtain ⟨hc, hd⟩ := List.forall_mem_cons.mp hd
    rw [← isDigit_iff] at hc
    cases k with
    | zero => simp at hk
    | succ k =>
      rw [List.cons_append, octetLoop, if_pos hc]
      have hnext := @ih hd k (v * 10 + (c.toNat - 48)) (by simpa using hk)
      rw [hnext]
      rfl

/-- Whatever the text, the loop reads a run of digits no longer than its bound and leaves the
    rest. -/
theorem octetLoop_spec (k v : ℕ) (s : Bytes) : ∃ d t, s = d ++ t ∧ (∀ c ∈ d, Digit c) ∧
    d.length ≤ k ∧ octetLoop k v s = (digitsValue v d, t) := by
  induction k generalizing v s with
  | zero => exact ⟨[], s, rfl, by simp, le_rfl, rfl⟩
  | succ k ih =>
    cases s with
    | nil => exact ⟨[], [], rfl, by simp, Nat.zero_le _, rfl⟩
    | cons c s =>
      rw [octetLoop]
      split
      · next hc =>
        obtain ⟨d, t, rfl, hd, hlen, heq⟩ := ih (v * 10 + (c.toNat - 48)) s
        refine ⟨c :: d, t, rfl, ?_, Nat.succ_le_succ hlen, heq⟩
        exact List.forall_mem_cons.mpr ⟨(isDigit_iff c).mp hc, hd⟩
      · exact ⟨[], c :: s, rfl, by simp, Nat.zero_le _, rfl⟩

/-- What is left after an octet. -/
def octetRest (b : Bytes) : Option Bytes :=
  let (v, t) := octetLoop 3 0 b
  let len := b.length - t.length
  if len = 0 ∨ 255 < v ∨ (1 < len ∧ b.head? = some (ch '0')) then none else some t

theorem ipv4Part_zero (s : Bytes) : ipv4Part s 0 = octetRest s := rfl

theorem ipv4Part_dot (s : Bytes) (part : ℕ) :
    ipv4Part (ch '.' :: s) (part + 1) = octetRest s := rfl

/-- A part of an address that is read is a `dec-octet`. -/
theorem octetRest_sound {b t : Bytes} (h : octetRest b = some t) : ∃ d ∈ decOctet, b = d ++ t := by
  obtain ⟨d, t', rfl, hd, hlen, heq⟩ := octetLoop_spec 3 0 b
  rw [octetRest, heq] at h
  dsimp only at h
  split at h
  · cases h
  · next hgood =>
    obtain rfl := Option.some.inj h
    rw [List.length_append, Nat.add_sub_cancel_right] at hgood
    push Not at hgood
    refine ⟨d, mem_decOctet.mpr ⟨hd, by omega, hlen, hgood.2.1, fun hlong => ?_⟩, rfl⟩
    have hhead := hgood.2.2 hlong
    rwa [List.head?_append_of_ne_nil d (by rintro rfl; simp at hlong)] at hhead

/-- A `dec-octet` that no digit follows is read as one part. -/
theorem octetRest_append {d t : Bytes} (h : d ∈ decOctet)
    (hstop : ∀ c, t.head? = some c → ¬ Digit c) : octetRest (d ++ t) = some t := by
  obtain ⟨hd, hpos, hlen, hvalue, hzero⟩ := mem_decOctet.mp h
  have hne : d ≠ [] := by
    rintro rfl
    simp at hpos
  rw [octetRest, octetLoop_append hd t (Or.inr ⟨hlen, hstop⟩)]
  dsimp only
  rw [List.length_append, Nat.add_sub_cancel_right, List.head?_append_of_ne_nil d hne, if_neg]
  push Not
  exact ⟨by omega, hvalue, hzero⟩

/-- Every part after the first stands after a dot. -/
theorem ipv4Part_sound {s t : Bytes} {part : ℕ} (h : ipv4Part s (part + 1) = some t) :
    ∃ d ∈ decOctet, s = ch '.' :: (d ++ t) := by
  cases s with
  | nil => cases h
  | cons c s =>
    by_cases hc : c = ch '.'
    · subst hc
      rw [ipv4Part_dot] at h
      obtain ⟨d, hd, rfl⟩ := octetRest_sound h
      exact ⟨d, hd, rfl⟩
    · rw [ipv4Part, if_pos (Nat.succ_pos part)] at h
      simp at h
      exact absurd h.1 hc

/-- An address of the grammar is four octets with three dots between them. -/
theorem mem_ipv4Address {s : Bytes} : s ∈ ipv4Address ↔ ∃ a ∈ decOctet, ∃ b ∈ decOctet,
    ∃ c ∈ decOctet, ∃ d ∈ decOctet, s = a ++ ch '.' :: (b ++ ch '.' :: (c ++ ch '.' :: d)) := by
  simp only [ipv4Address, mul_assoc, mem_mul_lit_mul]
  constructor
  · rintro ⟨a, ha, _, ⟨b, hb, _, ⟨c, hc, d, hd, rfl⟩, rfl⟩, rfl⟩
    exact ⟨a, ha, b, hb, c, hc, d, hd, rfl⟩
  · rintro ⟨a, ha, b, hb, c, hc, d, hd, rfl⟩
    exact ⟨a, ha, _, ⟨b, hb, _, ⟨c, hc, d, hd, rfl⟩, rfl⟩, rfl⟩

/-- The address check is the rule. -/
theorem validIpv4_iff (s : Bytes) : validIpv4 s = true ↔ s ∈ ipv4Address := by
  have hdot : ∀ (t : Bytes) (c : UInt8), (ch '.' :: t).head? = some c → ¬ Digit c := by
    intro t c hc
    obtain rfl := Option.some.inj hc
    simp [Digit]
  rw [validIpv4, decide_eq_true_eq, mem_ipv4Address]
  simp only [List.foldlM_cons, List.foldlM_nil, Option.bind_eq_bind]
  constructor
  · intro h
    obtain ⟨t₀, h₀, h⟩ := Option.bind_eq_some_iff.mp h
    obtain ⟨t₁, h₁, h⟩ := Option.bind_eq_some_iff.mp h
    obtain ⟨t₂, h₂, h⟩ := Option.bind_eq_some_iff.mp h
    obtain ⟨t₃, h₃, h⟩ := Option.bind_eq_some_iff.mp h
    obtain rfl := Option.some.inj h
    obtain ⟨a, ha, rfl⟩ := octetRest_sound h₀
    obtain ⟨b, hb, rfl⟩ := ipv4Part_sound h₁
    obtain ⟨c, hc, rfl⟩ := ipv4Part_sound h₂
    obtain ⟨d, hd, rfl⟩ := ipv4Part_sound h₃
    exact ⟨a, ha, b, hb, c, hc, d, hd, by rw [List.append_nil]⟩
  · rintro ⟨a, ha, b, hb, c, hc, d, hd, rfl⟩
    have hd' := octetRest_append hd (t := []) (by simp)
    rw [List.append_nil] at hd'
    rw [ipv4Part_zero, octetRest_append ha (hdot _), Option.bind_some, ipv4Part_dot,
      octetRest_append hb (hdot _), Option.bind_some, ipv4Part_dot, octetRest_append hc (hdot _),
      Option.bind_some, ipv4Part_dot, hd', Option.bind_some]
    rfl

/-! ## IPv6 addresses -/

/-- A group is good exactly when it is one to four hex digits. -/
theorem badGroup_iff (g : Bytes) : badGroup g = false ↔ g ∈ h16 := by
  rw [h16, mem_repeated_sat, badGroup]
  simp [isHex_iff, Nat.one_le_iff_ne_zero, and_assoc]

/-- A group holds hex digits alone. -/
theorem only_h16 : Only HexDig h16 := (Only.sat fun _ h => h).repeated 1 4

theorem hexDig_ne {c d : UInt8} (hd : ¬ HexDig d) (h : HexDig c) : c ≠ d := by
  rintro rfl
  exact hd h

theorem only_decOctet : Only Digit decOctet := fun _ hx => (mem_decOctet.mp hx).1

/-- An IPv4 address holds digits and dots alone. -/
theorem only_ipv4Address : Only (fun c => Digit c ∨ c = ch '.') ipv4Address := by
  intro x hx u hu
  obtain ⟨a, ha, b, hb, c, hc, d, hd, rfl⟩ := mem_ipv4Address.mp hx
  simp only [List.mem_append, List.mem_cons] at hu
  rcases hu with hu | hu | hu | hu | hu | hu | hu
  · exact Or.inl (only_decOctet a ha u hu)
  · exact Or.inr hu
  · exact Or.inl (only_decOctet b hb u hu)
  · exact Or.inr hu
  · exact Or.inl (only_decOctet c hc u hu)
  · exact Or.inr hu
  · exact Or.inl (only_decOctet d hd u hu)

/-- Every IPv4 address holds a dot, which tells it from a group. -/
theorem dot_mem_ipv4Address {x : Bytes} (hx : x ∈ ipv4Address) : ch '.' ∈ x := by
  obtain ⟨a, ha, b, hb, c, hc, d, hd, rfl⟩ := mem_ipv4Address.mp hx
  simp

/-- No group holds the colon that separates groups. -/
theorem h16_no_colon : Only (· ≠ ch ':') h16 :=
  only_h16.mono fun _ h => hexDig_ne (by simp [HexDig, Digit]) h

theorem h16_no_dot : Only (· ≠ ch '.') h16 :=
  only_h16.mono fun _ h => hexDig_ne (by simp [HexDig, Digit]) h

theorem ipv4Address_no_colon : Only (· ≠ ch ':') ipv4Address := by
  refine only_ipv4Address.mono fun c h => ?_
  rcases h with h | rfl
  · exact hexDig_ne (by simp [HexDig, Digit]) (Or.inl h)
  · decide

/-- The loop over groups counts them, and an address in the last place twice. -/
theorem ipv6PiecesLoop_iff (v4Last : Bool) (s : Bytes) (count total : ℕ) :
    ipv6PiecesLoop v4Last s count = some total ↔
      ∃ k, (total = count + k + 1 ∧ s ∈ run h16 (ch ':') h16 k) ∨
        (v4Last = true ∧ total = count + k + 2 ∧ s ∈ run h16 (ch ':') ipv4Address k) := by
  -- by length: each turn drops a group and its colon
  induction hlen : s.length using Nat.strong_induction_on generalizing s count with
  | _ n ih =>
    rw [ipv6PiecesLoop.eq_def]
    split
    -- no colon is left: the last place, a group or an address
    · next h =>
      have hs : ch ':' ∉ s := by
        refine (split_cases (ch ':') s).resolve_right ?_
        rintro ⟨l, r, rfl, hl⟩
        rw [find_append r hl] at h
        cases h
      simp only [run_of_notMem hs]
      split
      · next hv4 =>
        rw [Bool.and_eq_true, List.contains_iff_mem] at hv4
        -- a dot decides that it is read as an address
        have hgroup : s ∉ h16 := fun hmem => h16_no_dot s hmem _ hv4.2 rfl
        constructor
        · intro hsome
          split at hsome
          · next hok =>
            have hmem := (validIpv4_iff s).mp hok
            exact ⟨0, Or.inr ⟨hv4.1, (Option.some.inj hsome).symm, rfl, hmem⟩⟩
          · cases hsome
        · rintro ⟨k, ⟨-, -, hmem⟩ | ⟨-, rfl, rfl, hmem⟩⟩
          · exact absurd hmem hgroup
          · rw [if_pos ((validIpv4_iff s).mpr hmem)]
      · next hv4 =>
        rw [Bool.and_eq_true, List.contains_iff_mem] at hv4
        split
        · next hbad =>
          refine iff_of_false (by rintro ⟨⟩) ?_
          rintro ⟨k, ⟨-, -, hmem⟩ | ⟨htrue, -, -, hmem⟩⟩
          · rw [(badGroup_iff s).mpr hmem] at hbad
            cases hbad
          · exact hv4 ⟨htrue, dot_mem_ipv4Address hmem⟩
        · next hbad =>
          rw [Bool.not_eq_true, badGroup_iff] at hbad
          constructor
          · intro hsome
            exact ⟨0, Or.inl ⟨(Option.some.inj hsome).symm, rfl, hbad⟩⟩
          · rintro ⟨k, ⟨rfl, rfl, -⟩ | ⟨htrue, -, -, hmem⟩⟩
            · rfl
            · exact absurd ⟨htrue, dot_mem_ipv4Address hmem⟩ hv4
    -- the first group stands before the first colon
    · next e h =>
      obtain hs | ⟨l, r, rfl, hl⟩ := split_cases (ch ':') s
      · rw [find_of_notMem hs] at h
        cases h
      · rw [find_append r hl] at h
        obtain rfl := Option.some.inj h
        rw [take_append_cons, drop_append_cons]
        simp only [run_cons h16_no_colon h16_no_colon hl,
          run_cons h16_no_colon ipv4Address_no_colon hl]
        split
        · next hbad =>
          have hnot : l ∉ h16 := fun hmem => by
            rw [(badGroup_iff l).mpr hmem] at hbad
            cases hbad
          refine iff_of_false (by rintro ⟨⟩) ?_
          rintro ⟨k, ⟨-, j, -, hmem, -⟩ | ⟨-, -, j, -, hmem, -⟩⟩
          · exact hnot hmem
          · exact hnot hmem
        · next hgood =>
          rw [Bool.not_eq_true, badGroup_iff] at hgood
          rw [ih r.length (by simp [← hlen]; omega) r (count + 1) rfl]
          constructor
          · rintro ⟨k, ⟨rfl, hr⟩ | ⟨htrue, rfl, hr⟩⟩
            · exact ⟨k + 1, Or.inl ⟨by omega, k, rfl, hgood, hr⟩⟩
            · exact ⟨k + 1, Or.inr ⟨htrue, by omega, k, rfl, hgood, hr⟩⟩
          · rintro ⟨_, ⟨rfl, k, rfl, -, hr⟩ | ⟨htrue, rfl, k, rfl, -, hr⟩⟩
            · exact ⟨k, Or.inl ⟨by omega, hr⟩⟩
            · exact ⟨k, Or.inr ⟨htrue, by omega, hr⟩⟩

/-- The last place of a run may be two groups. -/
theorem mem_run_ls32 {m : ℕ} {x : Bytes} : x ∈ run h16 (ch ':') ls32 m ↔
    x ∈ run h16 (ch ':') h16 (m + 1) ∨ x ∈ run h16 (ch ':') ipv4Address m := by
  have hsplit : run h16 (ch ':') ls32 m
      = run h16 (ch ':') h16 (m + 1) + run h16 (ch ':') ipv4Address m := by
    rw [run, run, run, ls32, mul_add, pow_succ, mul_assoc ((h16 * {[ch ':']}) ^ m)]
    rfl
  rw [hsplit, Language.mem_add]

theorem nil_notMem_h16 : [] ∉ h16 := by
  rw [h16, mem_repeated_sat]
  simp

/-- A run whose last item is never empty is never empty. -/
theorem nil_notMem_run {T : Language UInt8} (hT : [] ∉ T) (k : ℕ) :
    [] ∉ run h16 (ch ':') T k := by
  intro h
  have hk := (run_of_notMem List.not_mem_nil).mp h
  exact hT hk.2

theorem nil_notMem_ipv4Address : [] ∉ ipv4Address := fun h =>
  absurd (dot_mem_ipv4Address h) List.not_mem_nil

/-- Before a gap. -/
theorem ipv6Pieces_left (s : Bytes) (n : ℕ) : ipv6Pieces s false = some n ↔ s ∈ left n := by
  rw [ipv6Pieces]
  cases s with
  | nil =>
    cases n with
    | zero => exact iff_of_true rfl rfl
    | succ k => exact iff_of_false (by simp) (nil_notMem_run nil_notMem_h16 k)
  | cons c s =>
    rw [if_neg (by simp), ipv6PiecesLoop_iff]
    cases n with
    | zero => simp [left]
    | succ n => simp [left]

/-- After one, or where there is none. -/
theorem ipv6Pieces_right (s : Bytes) (m : ℕ) : ipv6Pieces s true = some m ↔ s ∈ right m := by
  have hls32 : ∀ m : ℕ, [] ∉ run h16 (ch ':') ls32 m := by
    intro m h
    rcases mem_run_ls32.mp h with h | h
    · exact nil_notMem_run nil_notMem_h16 _ h
    · exact nil_notMem_run nil_notMem_ipv4Address _ h
  rw [ipv6Pieces]
  cases s with
  | nil =>
    match m with
    | 0 => exact iff_of_true rfl rfl
    | 1 => exact iff_of_false (by simp) nil_notMem_h16
    | m + 2 => exact iff_of_false (by simp) (hls32 m)
  | cons c s =>
    rw [if_neg (by simp), ipv6PiecesLoop_iff]
    match m with
    | 0 => simp [right]
    | 1 => simp [right, run_zero]
    | m + 2 =>
      rw [right, mem_run_ls32]
      simp [exists_or]

/-! ## The gap -/

/-- No two colons follow each other. -/
def NoGap (x : Bytes) : Prop := List.IsChain (fun a b => ¬ (a = ch ':' ∧ b = ch ':')) x

/-- A text without a colon has no gap. -/
theorem NoGap.of_notMem {x : Bytes} (h : ch ':' ∉ x) : NoGap x := by
  refine List.isChain_iff_getElem.mpr fun i hi heq => h ?_
  rw [← heq.1]
  exact List.getElem_mem _

theorem NoGap.get {x : Bytes} (h : NoGap x) (j : ℕ) :
    ¬ (x[j]? = some (ch ':') ∧ x[j + 1]? = some (ch ':')) := by
  rintro ⟨hj, hnext⟩
  obtain ⟨_, hj⟩ := List.getElem?_eq_some_iff.mp hj
  obtain ⟨hlt, hnext⟩ := List.getElem?_eq_some_iff.mp hnext
  exact List.isChain_iff_getElem.mp h j hlt ⟨hj, hnext⟩

/-- Neither a gap nor a colon at either end. -/
structure Tight (x : Bytes) : Prop where
  noGap : NoGap x
  head : x.head? ≠ some (ch ':')
  last : x.getLast? ≠ some (ch ':')

/-- A text without a colon is tight: it neither begins nor ends with one and has no gap. -/
theorem Tight.of_notMem {x : Bytes} (h : ch ':' ∉ x) : Tight x :=
  ⟨.of_notMem h, fun hc => h (List.mem_of_head? hc), fun hc => h (List.mem_of_getLast? hc)⟩

/-- Groups joined by single colons leave no gap, whatever their number. -/
theorem Tight.run {T : Language UInt8} (hT : Only (· ≠ ch ':') T) (hne : [] ∉ T) {k : ℕ} {x : Bytes}
    (hx : x ∈ run h16 (ch ':') T k) : Tight x := by
  induction k generalizing x with
  | zero =>
    rw [run_zero] at hx
    exact .of_notMem fun hc => hT x hx _ hc rfl
  | succ k ih =>
    obtain ⟨g, hg, y, hy, rfl⟩ := mem_run_succ.mp hx
    have hgroup : Tight g := .of_notMem fun hc => h16_no_colon g hg _ hc rfl
    have hrest := ih hy
    have hgne : g ≠ [] := by
      rintro rfl
      exact nil_notMem_h16 hg
    have hyne : y ≠ [] := by
      rintro rfl
      exact nil_notMem_run hne k hy
    have hcolon : NoGap (ch ':' :: y) := by
      refine List.isChain_append.mpr ⟨List.isChain_singleton _, hrest.noGap, fun a _ b hb hab => ?_⟩
      rw [hab.2] at hb
      exact hrest.head hb
    refine ⟨List.isChain_append.mpr ⟨hgroup.noGap, hcolon, fun a ha b _ hab => ?_⟩, ?_, ?_⟩
    · rw [hab.1] at ha
      exact hgroup.last ha
    · rw [List.head?_append_of_ne_nil g hgne]
      exact hgroup.head
    · rw [List.getLast?_append_of_ne_nil _ (List.cons_ne_nil _ _),
        List.getLast?_cons_of_ne_nil hyne]
      exact hrest.last

theorem Tight.nil : Tight [] := .of_notMem List.not_mem_nil

theorem Tight.run_ls32 {m : ℕ} {x : Bytes} (hx : x ∈ Abnf.run h16 (ch ':') ls32 m) : Tight x := by
  rcases mem_run_ls32.mp hx with hx | hx
  · exact .run h16_no_colon nil_notMem_h16 hx
  · exact .run ipv4Address_no_colon nil_notMem_ipv4Address hx

/-- What the grammar allows before `::` is tight. -/
theorem Tight.left {n : ℕ} {x : Bytes} (hx : x ∈ left n) : Tight x := by
  cases n with
  | zero =>
    obtain rfl := (Language.mem_one x).mp hx
    exact .nil
  | succ n => exact .run h16_no_colon nil_notMem_h16 hx

/-- What the grammar allows after `::` is tight. -/
theorem Tight.right {m : ℕ} {x : Bytes} (hx : x ∈ right m) : Tight x := by
  match m with
  | 0 =>
    obtain rfl := (Language.mem_one x).mp hx
    exact .nil
  | 1 => exact .of_notMem fun hc => h16_no_colon x hx _ hc rfl
  | m + 2 => exact .run_ls32 hx

/-- The place of a two byte pattern, read off the two bytes. -/
theorem pair_prefix_drop {a b : UInt8} {s : Bytes} {j : ℕ} :
    [a, b] <+: s.drop j ↔ s[j]? = some a ∧ s[j + 1]? = some b := by
  rw [← List.head?_drop, ← List.head?_drop, ← List.drop_drop]
  match s.drop j with
  | [] => simp
  | [x] => simp
  | x :: y :: t => simp [eq_comm]

/-- Between two tight strings there is one gap. -/
theorem gap_unique {l r : Bytes} (hl : Tight l) (hr : Tight r) (j : ℕ) :
    [ch ':', ch ':'] <+: (l ++ ch ':' :: ch ':' :: r).drop j ↔ j = l.length := by
  rw [pair_prefix_drop]
  constructor
  · rintro ⟨hj, hnext⟩
    rcases Nat.lt_trichotomy j l.length with h | h | h
    · exfalso
      rw [List.getElem?_append_left h] at hj
      rcases Nat.lt_or_ge (j + 1) l.length with h' | h'
      · rw [List.getElem?_append_left h'] at hnext
        exact hl.noGap.get j ⟨hj, hnext⟩
      · refine hl.last ?_
        rw [List.getLast?_eq_getElem?, ← hj]
        congr 1
        omega
    · exact h
    · exfalso
      obtain ⟨i, rfl⟩ := Nat.exists_eq_add_of_lt h
      rw [List.getElem?_append_right (by omega)] at hj hnext
      cases i with
      | zero =>
        refine hr.head ?_
        rw [List.head?_eq_getElem?]
        simpa [show l.length + 0 + 1 + 1 - l.length = 2 by omega] using hnext
      | succ i =>
        refine hr.noGap.get i ⟨?_, ?_⟩
        · simpa [show l.length + (i + 1) + 1 - l.length = i + 2 by omega] using hj
        · simpa [show l.length + (i + 1) + 1 + 1 - l.length = i + 1 + 2 by omega] using hnext
  · rintro rfl
    simp

/-- A text of the grammar with `::` in it splits at those two colons. -/
theorem mem_gap_mul {L M : Language UInt8} {x : Bytes} :
    x ∈ L * (lit [':', ':'] * M) ↔ ∃ l ∈ L, ∃ r ∈ M, x = l ++ ch ':' :: ch ':' :: r := by
  rw [Language.mem_mul]
  constructor
  · rintro ⟨l, hl, _, hy, rfl⟩
    obtain ⟨r, hr, rfl⟩ := mem_singleton_mul.mp hy
    exact ⟨l, hl, r, hr, rfl⟩
  · rintro ⟨l, hl, r, hr, rfl⟩
    exact ⟨l, hl, _, mem_singleton_mul.mpr ⟨r, hr, rfl⟩, rfl⟩

/-- The check of an address without a zone is the rule. -/
theorem validIpv6_iff (s : Bytes) : validIpv6 s = true ↔ s ∈ ipv6Address := by
  rw [mem_ipv6Address, validIpv6]
  split
  · next h =>
    rw [decide_eq_true_eq, ipv6Pieces_right]
    -- without a gap there must be eight groups
    refine (or_iff_left ?_).symm
    rintro ⟨n, m, -, hx⟩
    obtain ⟨l, hl, r, hr, rfl⟩ := mem_gap_mul.mp hx
    refine find_eq_none_iff.mp h l.length (Nat.zero_le _) (by simp) ?_
    exact (gap_unique (.left hl) (.right hr) _).mpr rfl
  · next gap h =>
    obtain ⟨-, hlt, hpre, hfirst⟩ := find_eq_some_iff.mp h
    have hnot : s ∉ run h16 (ch ':') ls32 6 := fun hx =>
      (Tight.run_ls32 hx).noGap.get gap (pair_prefix_drop.mp hpre)
    rw [or_iff_right hnot]
    have hsplit : s = s.take gap ++ ch ':' :: ch ':' :: s.drop (gap + 2) := by
      obtain ⟨r, hr⟩ := hpre
      have hr' : r = s.drop (gap + 2) := by
        rw [← List.drop_drop, ← hr]
        rfl
      rw [← hr']
      exact (List.take_append_drop gap s).symm.trans (congrArg _ hr.symm)
    -- the code cuts at the first gap, and an address has only one
    have hparts : (∃ n m, n + m ≤ 7 ∧ s ∈ left n * (lit [':', ':'] * right m)) ↔
        find [ch ':', ch ':'] s (gap + 1) = none ∧
          ∃ n m, n + m ≤ 7 ∧ s.take gap ∈ left n ∧ s.drop (gap + 2) ∈ right m := by
      constructor
      · rintro ⟨n, m, hle, hx⟩
        obtain ⟨l, hl, r, hr, rfl⟩ := mem_gap_mul.mp hx
        have hunique := gap_unique (.left hl) (.right hr)
        obtain rfl := (hunique gap).mp hpre
        refine ⟨find_eq_none_iff.mpr fun j hj _ hpre' => ?_, n, m, hle, ?_, ?_⟩
        · have hj' := (hunique j).mp hpre'
          omega
        · rwa [List.take_left]
        · rw [← List.drop_drop, List.drop_left]
          exact hr
      · rintro ⟨-, n, m, hle, hl, hr⟩
        rw [hsplit]
        exact ⟨n, m, hle, mem_gap_mul.mpr ⟨_, hl, _, hr, rfl⟩⟩
    rw [hparts]
    simp only [← ipv6Pieces_left, ← ipv6Pieces_right]
    cases find [ch ':', ch ':'] s (gap + 1) with
    | some i => simp
    | none =>
      cases ipv6Pieces (s.take gap) false with
      | none => simp
      | some n =>
        cases ipv6Pieces (s.drop (gap + 2)) true with
        | none => simp
        | some m => simp

/-! ## Literals -/

/-- The characters of an address. -/
def AddressChar (c : UInt8) : Prop := HexDig c ∨ c = ch ':' ∨ c = ch '.'

/-- The bytes an IPv6 address is made of. -/
theorem only_ipv6Address : Only AddressChar ipv6Address := by
  have hgroup : Only AddressChar h16 := only_h16.mono fun _ h => Or.inl h
  have hcolon : Only AddressChar (lit [':']) := .singleton (by simp [AddressChar])
  have hgap : Only AddressChar (lit [':', ':']) := .singleton (by simp [AddressChar])
  have haddress : Only AddressChar ipv4Address := by
    refine only_ipv4Address.mono fun c h => ?_
    rcases h with h | h
    · exact Or.inl (Or.inl h)
    · exact Or.inr (Or.inr h)
  have hpair : Only AddressChar h16Colon := hgroup.mul hcolon
  have hlast : Only AddressChar ls32 := ((hgroup.mul hcolon).mul hgroup).add haddress
  have hbefore : ∀ k, Only AddressChar (optional (repeated 0 k h16Colon * h16)) := fun k =>
    ((hpair.repeated 0 k).mul hgroup).optional
  have h1 := (hpair.pow 6).mul hlast
  have h2 := (hgap.mul (hpair.pow 5)).mul hlast
  have h3 := ((hgroup.optional.mul hgap).mul (hpair.pow 4)).mul hlast
  have h4 := (((hbefore 1).mul hgap).mul (hpair.pow 3)).mul hlast
  have h5 := (((hbefore 2).mul hgap).mul (hpair.pow 2)).mul hlast
  have h6 := ((((hbefore 3).mul hgap).mul hgroup).mul hcolon).mul hlast
  have h7 := ((hbefore 4).mul hgap).mul hlast
  have h8 := ((hbefore 5).mul hgap).mul hgroup
  have h9 := (hbefore 6).mul hgap
  exact (((((((h1.add h2).add h3).add h4).add h5).add h6).add h7).add h8).add h9

theorem nil_notMem_ipv6Address : [] ∉ ipv6Address := by
  intro h
  rcases mem_ipv6Address.mp h with h | ⟨n, m, -, h⟩
  · rcases mem_run_ls32.mp h with h | h
    · exact nil_notMem_run nil_notMem_h16 _ h
    · exact nil_notMem_run nil_notMem_ipv4Address _ h
  · obtain ⟨l, -, r, -, heq⟩ := mem_gap_mul.mp h
    simp at heq

theorem and_isHex_iff (x y : UInt8) :
    (isHex x && isHex y) = true ↔ HexDig x ∧ HexDig y := by
  rw [Bool.and_eq_true, isHex_iff, isHex_iff]

/-- The zone's loop at a byte that starts no escape. -/
theorem zoneLoop_char {c : UInt8} (hc : c ≠ ch '%') (s : Bytes) :
    zoneLoop (c :: s) = if isUnreserved c then zoneLoop s else false := by
  rw [zoneLoop.eq_def]
  dsimp only
  rw [if_neg hc]

/-- The loop over a zone passes exactly the runs of unreserved characters and escapes. -/
theorem zoneLoop_iff (s : Bytes) : zoneLoop s = true ↔ s ∈ (sat Unreserved + pctEncoded)∗ := by
  have hpct : ¬ Unreserved (ch '%') := by simp [Unreserved, Alpha, Digit]
  induction s using zoneLoop.induct with
  | case1 => exact iff_of_true rfl (Language.nil_mem_kstar _)
  | case2 x y t hhex ih =>
    rw [zoneLoop, if_pos rfl, if_pos hhex, pct_mem_escaped hpct, and_iff_right]
    · exact ih
    · exact (and_isHex_iff x y).mp hhex
  | case3 x y t hhex =>
    rw [zoneLoop, if_pos rfl, if_neg hhex, pct_mem_escaped hpct, ← and_isHex_iff]
    exact iff_of_false (by rintro ⟨⟩) fun h => hhex h.1
  | case4 s hshort =>
    rw [zoneLoop, if_pos rfl]
    · exact iff_of_false (by rintro ⟨⟩) (pct_notMem_escaped hpct hshort)
    · exact hshort
  | case5 c s hne hc ih =>
    rw [zoneLoop_char hne, if_pos hc, char_mem_escaped hne, and_iff_right]
    · exact ih
    · exact (isUnreserved_iff c).mp hc
  | case6 c s hne hc =>
    rw [zoneLoop_char hne, if_neg hc, char_mem_escaped hne, ← isUnreserved_iff]
    exact iff_of_false (by rintro ⟨⟩) fun h => hc h.1

theorem nil_notMem_pctEncoded : [] ∉ pctEncoded := by
  rw [pctEncoded, mul_assoc]
  simp

theorem nil_notMem_escaped (p : UInt8 → Prop) : [] ∉ sat p + pctEncoded := by
  rw [Language.mem_add]
  rintro (h | h)
  · exact nil_mem_sat.mp h
  · exact nil_notMem_pctEncoded h

/-- A zone is a text the loop passes that is not empty. -/
theorem mem_zoneId {s : Bytes} : s ∈ zoneId ↔ s ≠ [] ∧ zoneLoop s = true := by
  rw [zoneId, mem_some1 (nil_notMem_escaped _), zoneLoop_iff]

/-- An address with a zone has `%25` between the two. -/
theorem mem_ipv6AddrZ {s : Bytes} : s ∈ ipv6AddrZ ↔
    ∃ l ∈ ipv6Address, ∃ z ∈ zoneId, s = l ++ ch '%' :: ch '2' :: ch '5' :: z := by
  rw [ipv6AddrZ, mul_assoc, Language.mem_mul]
  constructor
  · rintro ⟨l, hl, _, hy, rfl⟩
    obtain ⟨z, hz, rfl⟩ := mem_singleton_mul.mp hy
    exact ⟨l, hl, z, hz, rfl⟩
  · rintro ⟨l, hl, z, hz, rfl⟩
    exact ⟨l, hl, _, mem_singleton_mul.mpr ⟨z, hz, rfl⟩, rfl⟩

/-- No address holds `%`, so the first one is where the zone starts. -/
theorem address_no_pct {l : Bytes} (hl : l ∈ ipv6Address) : ch '%' ∉ l := fun hc => by
  have hchar := only_ipv6Address l hl _ hc
  simp [AddressChar, HexDig, Digit] at hchar

/-- An address with a zone or without one. -/
theorem zoned_iff (s : Bytes) :
    (match find [ch '%'] s 0 with
      | none => validIpv6 s
      | some pct =>
        if (s.drop pct).take 3 ≠ [ch '%', ch '2', ch '5'] || pct + 3 = s.length then false
        else if zoneLoop (s.drop (pct + 3)) then validIpv6 (s.take pct)
        else false) = true ↔ s ∈ ipv6Address ∨ s ∈ ipv6AddrZ := by
  rcases split_cases (ch '%') s with hs | ⟨l, r, rfl, hl⟩
  · rw [find_of_notMem hs]
    dsimp only
    rw [validIpv6_iff]
    refine (or_iff_left fun hz => ?_).symm
    obtain ⟨l, -, z, -, rfl⟩ := mem_ipv6AddrZ.mp hz
    simp at hs
  · rw [find_append r hl]
    dsimp only
    have hnot : l ++ ch '%' :: r ∉ ipv6Address := fun hmem => address_no_pct hmem (by simp)
    have hzone : l ++ ch '%' :: r ∈ ipv6AddrZ ↔
        ∃ z ∈ zoneId, l ∈ ipv6Address ∧ r = ch '2' :: ch '5' :: z := by
      rw [mem_ipv6AddrZ]
      constructor
      · rintro ⟨l', hl', z, hz, heq⟩
        obtain ⟨rfl, rfl⟩ := split_unique hl (address_no_pct hl') heq
        exact ⟨z, hz, hl', rfl⟩
      · rintro ⟨z, hz, hl', rfl⟩
        exact ⟨l, hl', z, hz, rfl⟩
    rw [or_iff_right hnot, hzone, List.drop_left, List.take_left]
    match r with
    | [] => simp
    | [a] => simp
    | a :: b :: z =>
      have hdrop : (l ++ ch '%' :: a :: b :: z).drop (l.length + 3) = z := by
        rw [← List.drop_drop, List.drop_left]
        rfl
      rw [hdrop]
      simp [mem_zoneId, validIpv6_iff]
      tauto

/-- What may follow the dot of an address of a later version. -/
def FutureChar (c : UInt8) : Prop := (Unreserved c ∨ SubDelim c) ∨ c = ch ':'

/-- A future address is `v`, hex digits, a dot and one or more characters. -/
theorem mem_ipvFuture {s : Bytes} : s ∈ ipvFuture ↔ ∃ v x y, s = v :: (x ++ ch '.' :: y) ∧
    (v = ch 'v' ∨ v = ch 'V') ∧ (x ≠ [] ∧ ∀ c ∈ x, HexDig c) ∧ y ≠ [] ∧ ∀ c ∈ y, FutureChar c := by
  have hcolon : lit [':'] = sat fun c => c = ch ':' := by
    ext x
    rw [mem_sat]
    constructor
    · rintro rfl
      exact ⟨ch ':', rfl, rfl⟩
    · rintro ⟨a, rfl, rfl⟩
      rfl
  rw [ipvFuture, hcolon, sat_add, sat_add, mul_assoc, mul_assoc, Language.mem_mul]
  simp only [mem_mul_lit_mul, mem_some1_sat]
  constructor
  · rintro ⟨_, hv, _, ⟨x, hx, y, hy, rfl⟩, rfl⟩
    rcases (Language.mem_add ..).mp hv with rfl | rfl
    · exact ⟨ch 'v', x, y, rfl, Or.inl rfl, hx, hy⟩
    · exact ⟨ch 'V', x, y, rfl, Or.inr rfl, hx, hy⟩
  · rintro ⟨v, x, y, rfl, hv, hx, hy⟩
    refine ⟨[v], ?_, _, ⟨x, hx, y, hy, rfl⟩, rfl⟩
    rcases hv with rfl | rfl
    · exact Or.inl rfl
    · exact Or.inr rfl

theorem isFutureChar_iff (c : UInt8) :
    (isRegNameChar c || decide (c = ch ':')) = true ↔ FutureChar c := by
  rw [Bool.or_eq_true, isRegNameChar_iff, decide_eq_true_eq, FutureChar]

/-- The check of an address of a later version, whose first letter has been looked at. -/
theorem future_iff {v : UInt8} (hv : v = ch 'v' ∨ v = ch 'V') (s : Bytes) :
    (match find [ch '.'] (v :: s) 0 with
      | none => false
      | some dot =>
        if dot < 2 || dot + 1 = (v :: s).length then false
        else
          (((v :: s).take dot).drop 1).all isHex &&
            ((v :: s).drop (dot + 1)).all fun d => isRegNameChar d || d = ch ':') = true ↔
      v :: s ∈ ipvFuture := by
  have hvdot : v ≠ ch '.' := by
    rcases hv with rfl | rfl
    · decide
    · decide
  rw [mem_ipvFuture]
  -- the code cuts at the first dot, and the version before it contains none
  rcases split_cases (ch '.') s with hs | ⟨x, y, rfl, hx⟩
  · have hnone : ch '.' ∉ v :: s := fun hc =>
      (List.mem_cons.mp hc).elim (fun h => hvdot h.symm) hs
    rw [find_of_notMem hnone]
    refine iff_of_false (by rintro ⟨⟩) ?_
    rintro ⟨_, x, y, heq, -⟩
    obtain ⟨-, rfl⟩ := List.cons.inj heq
    simp at hs
  · have hnot : ch '.' ∉ v :: x := fun hc =>
      (List.mem_cons.mp hc).elim (fun h => hvdot h.symm) hx
    rw [← List.cons_append, find_append y hnot]
    dsimp only
    rw [take_append_cons, drop_append_cons]
    have hform : (∃ v' x' y', v :: x ++ ch '.' :: y = v' :: (x' ++ ch '.' :: y') ∧
        (v' = ch 'v' ∨ v' = ch 'V') ∧ (x' ≠ [] ∧ ∀ c ∈ x', HexDig c) ∧ y' ≠ [] ∧
        ∀ c ∈ y', FutureChar c) ↔
        (x ≠ [] ∧ ∀ c ∈ x, HexDig c) ∧ y ≠ [] ∧ ∀ c ∈ y, FutureChar c := by
      constructor
      · rintro ⟨v', x', y', heq, -, hx', hy'⟩
        obtain ⟨-, htail⟩ := List.cons.inj heq
        have hdot : ch '.' ∉ x' := fun hc => by
          have hhex := hx'.2 _ hc
          simp [HexDig, Digit] at hhex
        obtain ⟨rfl, rfl⟩ := split_unique hx hdot htail
        exact ⟨hx', hy'⟩
      · rintro ⟨hx', hy'⟩
        exact ⟨v, x, y, rfl, hv, hx', hy'⟩
    rw [hform]
    -- the two tests of the length say that both parts are there
    have hxlen : (v :: x).length < 2 ↔ x = [] := by
      rw [List.length_cons, ← List.length_eq_zero_iff]
      omega
    have hylen : (v :: x).length + 1 = (v :: x ++ ch '.' :: y).length ↔ y = [] := by
      rw [List.length_append, @List.length_cons _ _ y, ← List.length_eq_zero_iff]
      omega
    simp only [hxlen, hylen, List.drop_succ_cons, List.drop_zero]
    split
    · next h =>
      refine iff_of_false (by rintro ⟨⟩) ?_
      rintro ⟨⟨hne, -⟩, hne', -⟩
      simp [hne, hne'] at h
    · next h =>
      simp only [Bool.or_eq_true, decide_eq_true_eq, not_or] at h
      rw [Bool.and_eq_true, List.all_eq_true, List.all_eq_true]
      simp only [isHex_iff, isFutureChar_iff, ne_eq, h.1, h.2, not_false_eq_true, true_and]

/-- What may stand between brackets. -/
theorem validIpLiteral_iff (s : Bytes) :
    validIpLiteral s = true ↔ s ∈ ipv6Address + ipv6AddrZ + ipvFuture := by
  rw [Language.mem_add, Language.mem_add]
  cases s with
  | nil =>
    refine iff_of_false (by rintro ⟨⟩) ?_
    rintro ((h | h) | h)
    · exact nil_notMem_ipv6Address h
    · obtain ⟨l, -, z, -, heq⟩ := mem_ipv6AddrZ.mp h
      simp at heq
    · obtain ⟨v, x, y, heq, -⟩ := mem_ipvFuture.mp h
      cases heq
  | cons c s =>
    rw [validIpLiteral]
    split
    · next hv =>
      have hv' : c = ch 'v' ∨ c = ch 'V' := by simpa using hv
      have hchar : ¬ AddressChar c := by
        rcases hv' with rfl | rfl
        all_goals simp [AddressChar, HexDig, Digit]
      refine (future_iff hv' s).trans (or_iff_right ?_).symm
      rintro (h | h)
      · exact hchar (only_ipv6Address _ h c (List.mem_cons_self ..))
      · obtain ⟨l, hl, z, -, heq⟩ := mem_ipv6AddrZ.mp h
        cases l with
        | nil => exact nil_notMem_ipv6Address hl
        | cons a l =>
          obtain ⟨rfl, -⟩ := List.cons.inj heq
          exact hchar (only_ipv6Address _ hl c (List.mem_cons_self ..))
    · next hv =>
      refine (zoned_iff (c :: s)).trans (or_iff_left fun h => hv ?_).symm
      obtain ⟨v, x, y, heq, hv', -⟩ := mem_ipvFuture.mp h
      obtain ⟨rfl, -⟩ := List.cons.inj heq
      simpa using hv'

/-! ## The check -/

def RegChar (c : UInt8) : Prop := Unreserved c ∨ SubDelim c

/-- A name is a run of characters and escapes that is not empty. -/
theorem mem_regName {x : Bytes} :
    x ∈ regName ↔ x ≠ [] ∧ x ∈ (sat RegChar + pctEncoded)∗ := by
  have heq : sat Unreserved + pctEncoded + sat SubDelim = sat RegChar + pctEncoded := by
    rw [add_right_comm, sat_add]
    rfl
  rw [regName, heq, mem_some1 (nil_notMem_escaped _)]

theorem regChar_ne {c d : UInt8} (hd : ¬ RegChar d) (h : RegChar c) : c ≠ d := by
  rintro rfl
  exact hd h

theorem not_regChar : ¬ RegChar (ch '%') ∧ ¬ RegChar (ch ':') ∧ ¬ RegChar (ch '[') := by
  simp [RegChar, Unreserved, SubDelim, Alpha, Digit]

/-- The name's loop at a byte that neither ends the name nor starts an escape. -/
theorem regNameLoop_char {c : UInt8} (hcolon : c ≠ ch ':') (hpct : c ≠ ch '%') (s : Bytes) (n : ℕ) :
    regNameLoop (c :: s) n = if isRegNameChar c then regNameLoop s (n + 1) else none := by
  rw [regNameLoop.eq_def]
  dsimp only
  rw [if_neg hcolon, if_neg hpct]

/-- The name's loop at `%` takes two hex digits with it. -/
theorem regNameLoop_pct (x y : UInt8) (t : Bytes) (n : ℕ) :
    regNameLoop (ch '%' :: x :: y :: t) n
      = if isHex x && isHex y then regNameLoop t (n + 1) else none := by
  rw [regNameLoop.eq_def]
  rfl

/-- The loop stops after a registered name. -/
theorem regNameLoop_sound (h : Bytes) (n m : ℕ) (rest : Bytes)
    (heq : regNameLoop h n = some (m, rest)) :
    ∃ x ∈ (sat RegChar + pctEncoded)∗, h = x ++ rest ∧ (x = [] → m = n) := by
  induction h, n using regNameLoop.induct with
  | case1 n =>
    obtain ⟨rfl, rfl⟩ := Prod.mk.inj (Option.some.inj heq)
    exact ⟨[], Language.nil_mem_kstar _, rfl, fun _ => rfl⟩
  | case2 s n =>
    rw [regNameLoop.eq_def] at heq
    obtain ⟨rfl, rfl⟩ := Prod.mk.inj (Option.some.inj heq)
    exact ⟨[], Language.nil_mem_kstar _, rfl, fun _ => rfl⟩
  | case3 n x y t hhex _ ih =>
    rw [regNameLoop_pct, if_pos hhex] at heq
    obtain ⟨z, hz, rfl, -⟩ := ih heq
    refine ⟨ch '%' :: x :: y :: z, ?_, rfl, (by rintro ⟨⟩)⟩
    exact (pct_mem_escaped not_regChar.1).mpr ⟨(and_isHex_iff x y).mp hhex, hz⟩
  | case4 n x y t hhex _ =>
    rw [regNameLoop_pct, if_neg hhex] at heq
    cases heq
  | case5 s n hshort hne =>
    rw [regNameLoop.eq_def] at heq
    dsimp only at heq
    rw [if_neg hne, if_pos rfl] at heq
    split at heq
    · next x y t => exact absurd rfl (hshort x y t)
    · cases heq
  | case6 c s n hcolon hpct hc ih =>
    rw [regNameLoop_char hcolon hpct, if_pos hc] at heq
    obtain ⟨z, hz, rfl, -⟩ := ih heq
    refine ⟨c :: z, ?_, rfl, (by rintro ⟨⟩)⟩
    exact (char_mem_escaped hpct).mpr ⟨(isRegNameChar_iff c).mp hc, hz⟩
  | case7 c s n hcolon hpct hc =>
    rw [regNameLoop_char hcolon hpct, if_neg hc] at heq
    cases heq

/-- A registered name that ends the value or stands before a colon is read whole. -/
theorem regNameLoop_append {x rest : Bytes} (hx : x ∈ (sat RegChar + pctEncoded)∗)
    (hrest : ∀ c, rest.head? = some c → c = ch ':') (n : ℕ) :
    ∃ m, regNameLoop (x ++ rest) n = some (m, rest) ∧ n ≤ m ∧ (x ≠ [] → n < m) := by
  induction hlen : x.length using Nat.strong_induction_on generalizing x n with
  | _ k ih =>
    cases x with
    | nil =>
      refine ⟨n, ?_, le_rfl, fun h => absurd rfl h⟩
      cases rest with
      | nil => rfl
      | cons c rest =>
        obtain rfl := hrest c rfl
        rw [List.nil_append, regNameLoop.eq_def]
        rfl
    | cons c x =>
      by_cases hc : c = ch '%'
      · subst hc
        rcases cons_mem_escaped.mp hx with ⟨h, -⟩ | ⟨-, a, b, y, rfl, ha, hb, hy⟩
        · exact absurd h not_regChar.1
        · obtain ⟨m, heq, hle, -⟩ := ih y.length (by simp [← hlen]; omega) hy (n + 1) rfl
          refine ⟨m, ?_, by omega, fun _ => by omega⟩
          have hhex := (and_isHex_iff a b).mpr ⟨ha, hb⟩
          rw [List.cons_append, List.cons_append, List.cons_append, regNameLoop_pct, if_pos hhex,
            heq]
      · obtain ⟨hreg, hy⟩ := (char_mem_escaped hc).mp hx
        obtain ⟨m, heq, hle, -⟩ := ih x.length (by simp [← hlen]) hy (n + 1) rfl
        refine ⟨m, ?_, by omega, fun _ => by omega⟩
        rw [List.cons_append, regNameLoop_char (regChar_ne not_regChar.2.1 hreg) hc,
          if_pos ((isRegNameChar_iff c).mpr hreg), heq]

/-- A literal is one of the three kinds of address between brackets. -/
theorem mem_ipLiteral {x : Bytes} : x ∈ ipLiteral ↔
    ∃ y ∈ ipv6Address + ipv6AddrZ + ipvFuture, x = ch '[' :: (y ++ [ch ']']) := by
  rw [ipLiteral, mul_assoc]
  constructor
  · intro h
    obtain ⟨z, hz, rfl⟩ := mem_singleton_mul.mp h
    obtain ⟨y, hy, _, rfl, rfl⟩ := Language.mem_mul.mp hz
    exact ⟨y, hy, rfl⟩
  · rintro ⟨y, hy, rfl⟩
    exact mem_singleton_mul.mpr ⟨_, Language.append_mem_mul hy rfl, rfl⟩

/-- What stands between brackets has no bracket. -/
theorem only_ipLiteral : Only (· ≠ ch ']') (ipv6Address + ipv6AddrZ + ipvFuture) := by
  have haddress : Only (· ≠ ch ']') ipv6Address := by
    refine only_ipv6Address.mono ?_
    rintro c h rfl
    simp [AddressChar, HexDig, Digit] at h
  have hunreserved : Only (· ≠ ch ']') (sat Unreserved) := by
    refine .sat ?_
    rintro c h rfl
    simp [Unreserved, Alpha, Digit] at h
  have hhex : Only (· ≠ ch ']') (sat HexDig) := by
    refine .sat ?_
    rintro c h rfl
    simp [HexDig, Digit] at h
  have hsub : Only (· ≠ ch ']') (sat SubDelim) := by
    refine .sat ?_
    rintro c h rfl
    simp [SubDelim] at h
  have hlit : ∀ text : List Char, (∀ t ∈ text, ch t ≠ ch ']') → Only (· ≠ ch ']') (lit text) := by
    intro text htext
    refine .singleton fun c hc => ?_
    obtain ⟨t, ht, rfl⟩ := List.mem_map.mp hc
    exact htext t ht
  have hpct : Only (· ≠ ch ']') pctEncoded := ((hlit ['%'] (by simp)).mul hhex).mul hhex
  have hzone : Only (· ≠ ch ']') ipv6AddrZ :=
    (haddress.mul (hlit ['%', '2', '5'] (by simp))).mul (hunreserved.add hpct).some1
  have hversion := (hlit ['v'] (by simp)).add (hlit ['V'] (by simp))
  have hrest := ((hunreserved.add hsub).add (hlit [':'] (by simp))).some1
  exact (haddress.add hzone).add (((hversion.mul hhex.some1).mul (hlit ['.'] (by simp))).mul hrest)

/-- What is left after the host of a value. -/
theorem hostRest_iff {h rest : Bytes} (hrest : ∀ c, rest.head? = some c → c = ch ':') :
    hostRest h = some rest ↔ ∃ x ∈ ipLiteral + regName, h = x ++ rest := by
  rw [hostRest]
  simp only [Language.mem_add]
  split
  -- without a bracket only a registered name is left
  · next hbracket =>
    obtain ⟨s, rfl⟩ : ∃ s, h = ch '[' :: s := List.head?_eq_some_iff.mp hbracket
    -- no registered name starts with a bracket
    have hname : ∀ x ∈ regName, ch '[' :: s ≠ x ++ rest := by
      intro x hx heq
      obtain ⟨hne, hstar⟩ := mem_regName.mp hx
      obtain ⟨c, y, rfl⟩ := List.exists_cons_of_ne_nil hne
      obtain ⟨rfl, -⟩ := List.cons.inj heq
      exact not_regChar.2.2 ((char_mem_escaped (by simp)).mp hstar).1
    have hliteral : (∃ x, (x ∈ ipLiteral ∨ x ∈ regName) ∧ ch '[' :: s = x ++ rest) ↔
        ∃ y ∈ ipv6Address + ipv6AddrZ + ipvFuture, s = y ++ ch ']' :: rest := by
      constructor
      · rintro ⟨x, hx | hx, heq⟩
        · obtain ⟨y, hy, rfl⟩ := mem_ipLiteral.mp hx
          refine ⟨y, hy, ?_⟩
          simpa using heq
        · exact absurd heq (hname x hx)
      · rintro ⟨y, hy, rfl⟩
        exact ⟨_, Or.inl (mem_ipLiteral.mpr ⟨y, hy, rfl⟩), by simp⟩
    rw [hliteral]
    -- the code cuts at the first closing bracket, and no literal contains one
    rcases split_cases (ch ']') s with hs | ⟨y, r, rfl, hy⟩
    · have hnone : ch ']' ∉ ch '[' :: s := by
        rw [List.mem_cons, not_or]
        exact ⟨by simp, hs⟩
      rw [find_of_notMem hnone]
      refine iff_of_false (by rintro ⟨⟩) ?_
      rintro ⟨y, -, rfl⟩
      simp at hs
    · have hnot : ch ']' ∉ ch '[' :: y := by
        rw [List.mem_cons, not_or]
        exact ⟨by simp, hy⟩
      rw [← List.cons_append, find_append r hnot]
      dsimp only
      rw [drop_append_cons, List.length_cons, Nat.add_sub_cancel, List.cons_append, List.drop_one,
        List.tail_cons, List.take_left]
      split
      · next hok =>
        rw [validIpLiteral_iff] at hok
        constructor
        · intro heq
          obtain rfl := Option.some.inj heq
          exact ⟨y, hok, rfl⟩
        · rintro ⟨y', hy', heq⟩
          have hclean : ch ']' ∉ y' := fun hc => only_ipLiteral y' hy' _ hc rfl
          obtain ⟨-, rfl⟩ := split_unique hy hclean heq
          rfl
      · next hbad =>
        refine iff_of_false (by rintro ⟨⟩) ?_
        rintro ⟨y', hy', heq⟩
        have hclean : ch ']' ∉ y' := fun hc => only_ipLiteral y' hy' _ hc rfl
        obtain ⟨rfl, -⟩ := split_unique hy hclean heq
        exact hbad ((validIpLiteral_iff y).mpr hy')
  · next hbracket =>
    have hliteral : ∀ x ∈ ipLiteral, h ≠ x ++ rest := by
      rintro x hx rfl
      obtain ⟨y, -, rfl⟩ := mem_ipLiteral.mp hx
      exact hbracket rfl
    constructor
    · intro heq
      cases hloop : regNameLoop h 0 with
      | none =>
        rw [hloop] at heq
        cases heq
      | some result =>
        obtain ⟨n, rest'⟩ := result
        rw [hloop] at heq
        dsimp only at heq
        split at heq
        · cases heq
        · next hn =>
          obtain rfl := Option.some.inj heq
          obtain ⟨x, hx, rfl, hempty⟩ := regNameLoop_sound h 0 n rest' hloop
          exact ⟨x, Or.inr (mem_regName.mpr ⟨fun hx => hn (hempty hx), hx⟩), rfl⟩
    · rintro ⟨x, hx | hx, rfl⟩
      · exact absurd rfl (hliteral x hx)
      · obtain ⟨hne, hstar⟩ := mem_regName.mp hx
        obtain ⟨m, heq, -, hlt⟩ := regNameLoop_append hstar hrest 0
        rw [heq]
        dsimp only
        rw [if_neg (hlt hne).ne']

/-- A port is at most five digits; none at all is a port too. -/
theorem mem_port {p : Bytes} : p ∈ port ↔ p.length ≤ 5 ∧ ∀ c ∈ p, Digit c := by
  rw [port, mem_repeated_sat]
  simp

/-- The check of a Host value is the grammar. -/
theorem validHost_iff (h : Bytes) : validHost h = true ↔ h ∈ host := by
  -- a host and what is left of it: nothing, or a colon and a port
  have hhost : h ∈ host ↔ ∃ rest, (∃ x ∈ ipLiteral + regName, h = x ++ rest) ∧
      (rest = [] ∨ ∃ p ∈ port, rest = ch ':' :: p) := by
    rw [host, Language.mem_mul]
    constructor
    · rintro ⟨x, hx, rest, hrest, rfl⟩
      refine ⟨rest, ⟨x, hx, rfl⟩, (mem_optional.mp hrest).imp id fun h => ?_⟩
      exact mem_singleton_mul.mp h
    · rintro ⟨rest, ⟨x, hx, rfl⟩, hrest⟩
      refine ⟨x, hx, rest, mem_optional.mpr (hrest.imp id fun h => ?_), rfl⟩
      exact mem_singleton_mul.mpr h
  have hempty : [] ∉ ipLiteral + regName := by
    rw [Language.mem_add]
    rintro (h | h)
    · obtain ⟨y, -, heq⟩ := mem_ipLiteral.mp h
      cases heq
    · exact (mem_regName.mp h).1 rfl
  rw [hhost, validHost]
  cases h with
  | nil =>
    refine iff_of_false (by rintro ⟨⟩) ?_
    rintro ⟨rest, ⟨x, hx, heq⟩, -⟩
    rw [(List.append_eq_nil_iff.mp heq.symm).1] at hx
    exact hempty hx
  | cons a h =>
    rw [if_neg (by simp)]
    constructor
    · intro hvalid
      cases heq : hostRest (a :: h) with
      | none =>
        rw [heq] at hvalid
        cases hvalid
      | some rest =>
        rw [heq] at hvalid
        cases rest with
        | nil => exact ⟨[], (hostRest_iff (by simp)).mp heq, Or.inl rfl⟩
        | cons c p =>
          dsimp only at hvalid
          split at hvalid
          · cases hvalid
          · next hc =>
            rw [not_not] at hc
            subst hc
            split at hvalid
            · cases hvalid
            · next hlen =>
              refine ⟨_, (hostRest_iff (by simp)).mp heq, Or.inr ⟨p, mem_port.mpr ?_, rfl⟩⟩
              refine ⟨by omega, fun c hc => (isDigit_iff c).mp ?_⟩
              exact List.all_eq_true.mp hvalid c hc
    · rintro ⟨_, hx, rfl | ⟨p, hp, rfl⟩⟩
      · rw [(hostRest_iff (by simp)).mpr hx]
      · obtain ⟨hlen, hall⟩ := mem_port.mp hp
        rw [(hostRest_iff (by simp)).mpr hx]
        dsimp only
        rw [if_neg (by simp), if_neg (by omega), List.all_eq_true]
        exact fun c hc => (isDigit_iff c).mpr (hall c hc)

end HostCheck

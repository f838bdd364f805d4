import Mathlib

/-! # The grammar of JSON

    RFC 8259 over UTF-16 units.  A production relates the text before it to what it leaves, and a
    value to its tree, in which strings and numbers are as they are written.

    * `Ws`, `Body`, `Number` — the tokens;
    * `Value`, `Elements`, `Members` — the values; `File` — a whole text;
    * `Tree.All`, `value_all` — trees all of whose numbers have a property;
    * `unescape` — what the text of a string stands for. -/

namespace JsonGrammar

/-- A value as it is written. -/
inductive Tree where
  | array (elements : List Tree)
  | object (members : List (List UInt16 × Tree))
  | string (raw : List UInt16)
  | number (raw : List UInt16)
  | true
  | false
  | null

/-! ## Tokens -/

section

variable {s s' r r' raw : List UInt16} {u : UInt16}

/-- Whitespace. -/
def IsWs (u : UInt16) : Prop := u = 0x20 ∨ u = 0x09 ∨ u = 0x0A ∨ u = 0x0D

/-- A decimal digit. -/
def IsDigit (u : UInt16) : Prop := 0x30 ≤ u.toNat ∧ u.toNat ≤ 0x39

/-- A hexadecimal digit, in either case. -/
def IsHex (u : UInt16) : Prop :=
  IsDigit u ∨ (0x61 ≤ u.toNat ∧ u.toNat ≤ 0x66) ∨ (0x41 ≤ u.toNat ∧ u.toNat ≤ 0x46)

/-- A unit that stands for itself in a string. -/
def IsPlain (u : UInt16) : Prop := 0x20 ≤ u.toNat ∧ u ≠ 0x22 ∧ u ≠ 0x5C

instance (u : UInt16) : Decidable (IsWs u) := inferInstanceAs (Decidable (_ ∨ _))

instance (u : UInt16) : Decidable (IsDigit u) := inferInstanceAs (Decidable (_ ∧ _))

instance (u : UInt16) : Decidable (IsHex u) := inferInstanceAs (Decidable (_ ∨ _))

instance (u : UInt16) : Decidable (IsPlain u) := inferInstanceAs (Decidable (_ ∧ _))

/-- What a backslash and one more unit stand for. -/
def escaped (u : UInt16) : Option UInt16 :=
  if u = 0x22 ∨ u = 0x5C ∨ u = 0x2F then some u
  else if u = 0x62 then some 0x08
  else if u = 0x66 then some 0x0C
  else if u = 0x6E then some 0x0A
  else if u = 0x72 then some 0x0D
  else if u = 0x74 then some 0x09
  else none

/-- The eight units that may follow a backslash. -/
theorem escaped_isSome : (escaped u).isSome ↔ u = 0x22 ∨ u = 0x5C ∨ u = 0x2F ∨ u = 0x62 ∨
    u = 0x66 ∨ u = 0x6E ∨ u = 0x72 ∨ u = 0x74 := by
  rw [escaped]
  split_ifs with h₁ h₂ h₃ h₄ h₅ h₆
  · exact iff_of_true rfl (by tauto)
  · exact iff_of_true rfl (by tauto)
  · exact iff_of_true rfl (by tauto)
  · exact iff_of_true rfl (by tauto)
  · exact iff_of_true rfl (by tauto)
  · exact iff_of_true rfl (by tauto)
  · exact iff_of_false (by simp) (by tauto)

/-- Whitespace before what is left of a text. -/
inductive Ws : List UInt16 → List UInt16 → Prop where
  | nil (s : List UInt16) : Ws s s
  | cons {u : UInt16} {s r : List UInt16} (hu : IsWs u) (h : Ws s r) : Ws (u :: s) r

/-- The rest of a string, to its closing mark. -/
inductive Body : List UInt16 → List UInt16 → List UInt16 → Prop where
  | close (r : List UInt16) : Body (0x22 :: r) [] r
  | plain {u : UInt16} {s raw r : List UInt16} (hu : IsPlain u) (h : Body s raw r) :
      Body (u :: s) (u :: raw) r
  | escape {u : UInt16} {s raw r : List UInt16} (hu : (escaped u).isSome) (h : Body s raw r) :
      Body (0x5C :: u :: s) (0x5C :: u :: raw) r
  | unicode {a b c d : UInt16} {s raw r : List UInt16} (ha : IsHex a) (hb : IsHex b) (hc : IsHex c)
      (hd : IsHex d) (h : Body s raw r) :
      Body (0x5C :: 0x75 :: a :: b :: c :: d :: s) (0x5C :: 0x75 :: a :: b :: c :: d :: raw) r

/-- Some digits, none included. -/
inductive Digits : List UInt16 → List UInt16 → List UInt16 → Prop where
  | nil (s : List UInt16) : Digits s [] s
  | cons {u : UInt16} {s raw r : List UInt16} (hu : IsDigit u) (h : Digits s raw r) :
      Digits (u :: s) (u :: raw) r

/-- Digits without a leading zero. -/
inductive Whole : List UInt16 → List UInt16 → List UInt16 → Prop where
  | zero (s : List UInt16) : Whole (0x30 :: s) [0x30] s
  | digits {u : UInt16} {s raw r : List UInt16} (hu : IsDigit u) (hne : u ≠ 0x30)
      (h : Digits s raw r) : Whole (u :: s) (u :: raw) r

/-- A fraction, or none. -/
inductive Fraction : List UInt16 → List UInt16 → List UInt16 → Prop where
  | absent (s : List UInt16) : Fraction s [] s
  | present {u : UInt16} {s raw r : List UInt16} (hu : IsDigit u) (h : Digits s raw r) :
      Fraction (0x2E :: u :: s) (0x2E :: u :: raw) r

/-- An exponent, or none. -/
inductive Exponent : List UInt16 → List UInt16 → List UInt16 → Prop where
  | absent (s : List UInt16) : Exponent s [] s
  | plain {e u : UInt16} {s raw r : List UInt16} (he : e = 0x65 ∨ e = 0x45) (hu : IsDigit u)
      (h : Digits s raw r) : Exponent (e :: u :: s) (e :: u :: raw) r
  | signed {e sign u : UInt16} {s raw r : List UInt16} (he : e = 0x65 ∨ e = 0x45)
      (hsign : sign = 0x2B ∨ sign = 0x2D) (hu : IsDigit u) (h : Digits s raw r) :
      Exponent (e :: sign :: u :: s) (e :: sign :: u :: raw) r

/-- A number. -/
inductive Number : List UInt16 → List UInt16 → List UInt16 → Prop where
  | plain {s s₁ s₂ r whole fraction exponent : List UInt16} (hw : Whole s whole s₁)
      (hf : Fraction s₁ fraction s₂) (he : Exponent s₂ exponent r) :
      Number s (whole ++ fraction ++ exponent) r
  | minus {s s₁ s₂ r whole fraction exponent : List UInt16} (hw : Whole s whole s₁)
      (hf : Fraction s₁ fraction s₂) (he : Exponent s₂ exponent r) :
      Number (0x2D :: s) (0x2D :: (whole ++ fraction ++ exponent)) r

/-- `true`, `false` and `null`. -/
def trueWord : List UInt16 := [0x74, 0x72, 0x75, 0x65]
/-- `false`. -/
def falseWord : List UInt16 := [0x66, 0x61, 0x6C, 0x73, 0x65]
/-- `null`. -/
def nullWord : List UInt16 := [0x6E, 0x75, 0x6C, 0x6C]

end

/-! ## Values -/

section

variable (num : List UInt16 → List UInt16 → List UInt16 → Prop)

mutual

/-- A value, where `num` are the numbers. -/
inductive Value : List UInt16 → Tree → List UInt16 → Prop where
  | string {s raw r : List UInt16} (h : Body s raw r) : Value (0x22 :: s) (.string raw) r
  | number {s raw r : List UInt16} (h : num s raw r) : Value s (.number raw) r
  | true (r : List UInt16) : Value (trueWord ++ r) .true r
  | false (r : List UInt16) : Value (falseWord ++ r) .false r
  | null (r : List UInt16) : Value (nullWord ++ r) .null r
  | emptyArray {s r : List UInt16} (h : Ws s (0x5D :: r)) : Value (0x5B :: s) (.array []) r
  | array {s r : List UInt16} {ts : List Tree} (h : Elements s ts r) :
      Value (0x5B :: s) (.array ts) r
  | emptyObject {s r : List UInt16} (h : Ws s (0x7D :: r)) : Value (0x7B :: s) (.object []) r
  | object {s r : List UInt16} {ms : List (List UInt16 × Tree)} (h : Members s ms r) :
      Value (0x7B :: s) (.object ms) r

/-- The elements of an array, to its closing bracket. -/
inductive Elements : List UInt16 → List Tree → List UInt16 → Prop where
  | last {s s₁ s₂ r : List UInt16} {t : Tree} (before : Ws s s₁) (h : Value s₁ t s₂)
      (after : Ws s₂ (0x5D :: r)) : Elements s [t] r
  | cons {s s₁ s₂ s₃ r : List UInt16} {t : Tree} {ts : List Tree} (before : Ws s s₁)
      (h : Value s₁ t s₂) (after : Ws s₂ (0x2C :: s₃)) (rest : Elements s₃ ts r) :
      Elements s (t :: ts) r

/-- The members of an object, to its closing brace. -/
inductive Members : List UInt16 → List (List UInt16 × Tree) → List UInt16 → Prop where
  | last {s s₁ s₂ s₃ s₄ s₅ r key : List UInt16} {t : Tree} (before : Ws s (0x22 :: s₁))
      (hkey : Body s₁ key s₂) (colon : Ws s₂ (0x3A :: s₃)) (between : Ws s₃ s₄)
      (h : Value s₄ t s₅) (after : Ws s₅ (0x7D :: r)) : Members s [(key, t)] r
  | cons {s s₁ s₂ s₃ s₄ s₅ s₆ r key : List UInt16} {t : Tree} {ms : List (List UInt16 × Tree)}
      (before : Ws s (0x22 :: s₁)) (hkey : Body s₁ key s₂) (colon : Ws s₂ (0x3A :: s₃))
      (between : Ws s₃ s₄) (h : Value s₄ t s₅) (after : Ws s₅ (0x2C :: s₆))
      (rest : Members s₆ ms r) : Members s ((key, t) :: ms) r

end

/-- A whole text: one value with whitespace around it. -/
def File (text : List UInt16) (tree : Tree) : Prop :=
  ∃ s r, Ws text s ∧ Value num s tree r ∧ Ws r []

end

/-! ## Lengths and heads -/

section

variable {s s' r r' raw : List UInt16} {u : UInt16}

/-- No whitespace is next. -/
def NoWs (s : List UInt16) : Prop := ∀ u ∈ s.head?, ¬ IsWs u

/-- The text ends, or what may follow a value is next. -/
def EndsValue (s : List UInt16) : Prop := ∀ u ∈ s.head?, IsWs u ∨ u = 0x2C ∨ u = 0x5D ∨ u = 0x7D

theorem noWs_cons (hu : ¬ IsWs u) : NoWs (u :: s) := by
  intro v hv
  rw [← Option.some.inj hv]
  exact hu

theorem endsValue_cons (hu : u = 0x2C ∨ u = 0x5D ∨ u = 0x7D) : EndsValue (u :: s) := by
  intro v hv
  rw [← Option.some.inj hv]
  exact Or.inr hu

theorem Ws.length_le (h : Ws s r) : r.length ≤ s.length := by
  induction h with
  | nil s => exact le_rfl
  | cons hu h ih => exact ih.trans (Nat.le_succ _)

/-- Whitespace is read to where it ends. -/
theorem Ws.unique (h : Ws s r) (h' : Ws s r') (hr : NoWs r) (hr' : NoWs r') : r = r' := by
  induction h with
  | nil s =>
    cases h' with
    | nil => rfl
    | cons hu h' => exact absurd hu (hr _ rfl)
  | cons hu h ih =>
    cases h' with
    | nil => exact absurd hu (hr' _ rfl)
    | cons hu' h' => exact ih h' hr

/-- Where a value may end, blanks before that place change nothing. -/
theorem Ws.stops (h : Ws s r) (hr : EndsValue r) : EndsValue s := by
  cases h with
  | nil => exact hr
  | cons hu h =>
    intro v hv
    rw [← Option.some.inj hv]
    exact Or.inl hu

/-- The body of a String is what stands before its closing quote. -/
theorem Body.eq (h : Body s raw r) : s = raw ++ 0x22 :: r := by
  induction h with
  | close r => rfl
  | plain hu h ih => rw [ih]; rfl
  | escape hu h ih => rw [ih]; rfl
  | unicode ha hb hc hd h ih => rw [ih]; rfl

/-- The digits read are a prefix. -/
theorem Digits.eq (h : Digits s raw r) : s = raw ++ r := by
  induction h with
  | nil s => rfl
  | cons hu h ih => rw [ih]; rfl

/-- Digits are read to where they end. -/
theorem Digits.unique {raw' : List UInt16} (h : Digits s raw r) (h' : Digits s raw' r')
    (hr : ∀ u ∈ r.head?, ¬ IsDigit u) (hr' : ∀ u ∈ r'.head?, ¬ IsDigit u) :
    raw = raw' ∧ r = r' := by
  induction h generalizing raw' with
  | nil s =>
    cases h' with
    | nil => exact ⟨rfl, rfl⟩
    | cons hu h' => exact absurd hu (hr _ rfl)
  | cons hu h ih =>
    cases h' with
    | nil => exact absurd hu (hr' _ rfl)
    | cons hu' h' =>
      obtain ⟨rfl, rfl⟩ := ih h' hr
      exact ⟨rfl, rfl⟩

theorem Body.length_eq (h : Body s raw r) : s.length = raw.length + 1 + r.length := by
  rw [h.eq, List.length_append, List.length_cons]
  omega

theorem Digits.length_eq (h : Digits s raw r) : s.length = raw.length + r.length := by
  rw [h.eq, List.length_append]

/-- A number takes at least one unit. -/
theorem Whole.length_lt (h : Whole s raw r) : r.length < s.length := by
  cases h with
  | zero => exact Nat.lt_succ_self _
  | digits hu hne h =>
    have hlen := h.length_eq
    rw [List.length_cons]
    omega

theorem Whole.head (h : Whole s raw r) : ∃ u s', s = u :: s' ∧ IsDigit u := by
  cases h with
  | zero => exact ⟨_, _, rfl, by decide⟩
  | digits hu => exact ⟨_, _, rfl, hu⟩

end

section

variable (num : List UInt16 → List UInt16 → List UInt16 → Prop)

/-- What follows an element in an array. -/
def MoreElements (s : List UInt16) (ts : List Tree) (r : List UInt16) : Prop :=
  (s = 0x5D :: r ∧ ts = []) ∨ ∃ s', s = 0x2C :: s' ∧ Elements num s' ts r

/-- What follows a member in an object. -/
def MoreMembers (s : List UInt16) (ms : List (List UInt16 × Tree)) (r : List UInt16) : Prop :=
  (s = 0x7D :: r ∧ ms = []) ∨ ∃ s', s = 0x2C :: s' ∧ Members num s' ms r

variable {num} {s r : List UInt16}

/-- A first element, and more. -/
theorem elements_iff {ts : List Tree} : Elements num s ts r ↔ ∃ t ts' s₁ s₂ s₃, ts = t :: ts' ∧
    Ws s s₁ ∧ Value num s₁ t s₂ ∧ Ws s₂ s₃ ∧ MoreElements num s₃ ts' r := by
  constructor
  · intro h
    cases h with
    | last before h after => exact ⟨_, [], _, _, _, rfl, before, h, after, Or.inl ⟨rfl, rfl⟩⟩
    | cons before h after rest =>
      exact ⟨_, _, _, _, _, rfl, before, h, after, Or.inr ⟨_, rfl, rest⟩⟩
  · rintro ⟨t, ts', s₁, s₂, s₃, rfl, before, h, after, ⟨rfl, rfl⟩ | ⟨s', rfl, rest⟩⟩
    · exact .last before h after
    · exact .cons before h after rest

/-- A first member, and more. -/
theorem members_iff {ms : List (List UInt16 × Tree)} : Members num s ms r ↔
    ∃ key t ms' s₁ s₂ s₃ s₄ s₅ s₆, ms = (key, t) :: ms' ∧ Ws s (0x22 :: s₁) ∧ Body s₁ key s₂ ∧
      Ws s₂ (0x3A :: s₃) ∧ Ws s₃ s₄ ∧ Value num s₄ t s₅ ∧ Ws s₅ s₆ ∧ MoreMembers num s₆ ms' r := by
  constructor
  · intro h
    cases h with
    | last before hkey colon between h after =>
      exact ⟨_, _, [], _, _, _, _, _, _, rfl, before, hkey, colon, between, h, after,
        Or.inl ⟨rfl, rfl⟩⟩
    | cons before hkey colon between h after rest =>
      exact ⟨_, _, _, _, _, _, _, _, _, rfl, before, hkey, colon, between, h, after,
        Or.inr ⟨_, rfl, rest⟩⟩
  · rintro ⟨key, t, ms', s₁, s₂, s₃, s₄, s₅, s₆, rfl, before, hkey, colon, between, h, after,
      ⟨rfl, rfl⟩ | ⟨s', rfl, rest⟩⟩
    · exact .last before hkey colon between h after
    · exact .cons before hkey colon between h after rest

/-- After an element the array ends or a comma follows, so a value may end there. -/
theorem MoreElements.stops {ts : List Tree} (h : MoreElements num s ts r) : EndsValue s := by
  rcases h with ⟨rfl, -⟩ | ⟨s', rfl, -⟩
  · exact endsValue_cons (Or.inr (Or.inl rfl))
  · exact endsValue_cons (Or.inl rfl)

theorem MoreElements.noWs {ts : List Tree} (h : MoreElements num s ts r) : NoWs s := by
  rcases h with ⟨rfl, -⟩ | ⟨s', rfl, -⟩
  · exact noWs_cons (by decide)
  · exact noWs_cons (by decide)

/-- After a member the object ends or a comma follows, so a value may end there. -/
theorem MoreMembers.stops {ms : List (List UInt16 × Tree)} (h : MoreMembers num s ms r) :
    EndsValue s := by
  rcases h with ⟨rfl, -⟩ | ⟨s', rfl, -⟩
  · exact endsValue_cons (Or.inr (Or.inr rfl))
  · exact endsValue_cons (Or.inl rfl)

theorem MoreMembers.noWs {ms : List (List UInt16 × Tree)} (h : MoreMembers num s ms r) :
    NoWs s := by
  rcases h with ⟨rfl, -⟩ | ⟨s', rfl, -⟩
  · exact noWs_cons (by decide)
  · exact noWs_cons (by decide)

end

/-- No value starts with whitespace. -/
theorem Value.noWs {s r : List UInt16} {t : Tree} (h : Value Whole s t r) : NoWs s := by
  cases h with
  | number h =>
    obtain ⟨u, s', rfl, hu⟩ := h.head
    refine noWs_cons fun hws => ?_
    rcases hws with rfl | rfl | rfl | rfl <;> exact absurd hu (by decide)
  | string | true | false | null | emptyArray | array | emptyObject | object =>
    exact noWs_cons (by decide)

mutual

/-- A value takes at least one unit. -/
theorem value_length {s r : List UInt16} {t : Tree} (h : Value Whole s t r) :
    r.length < s.length := by
  cases h with
  | string h =>
    have hlen := h.length_eq
    rw [List.length_cons]
    omega
  | number h => exact h.length_lt
  | true =>
    simp only [trueWord, List.cons_append, List.nil_append, List.length_cons]
    omega
  | false =>
    simp only [falseWord, List.cons_append, List.nil_append, List.length_cons]
    omega
  | null =>
    simp only [nullWord, List.cons_append, List.nil_append, List.length_cons]
    omega
  | emptyArray h => exact (Nat.lt_of_succ_le h.length_le).trans (Nat.lt_succ_self _)
  | array h => exact (elements_length h).trans (Nat.lt_succ_self _)
  | emptyObject h => exact (Nat.lt_of_succ_le h.length_le).trans (Nat.lt_succ_self _)
  | object h => exact (members_length h).trans (Nat.lt_succ_self _)

/-- Elements take at least one unit. -/
theorem elements_length {s r : List UInt16} {ts : List Tree} (h : Elements Whole s ts r) :
    r.length < s.length := by
  cases h with
  | last before h after =>
    have hlen := after.length_le
    rw [List.length_cons] at hlen
    have hval := value_length h
    have hbefore := before.length_le
    omega
  | cons before h after rest =>
    have hlen := after.length_le
    rw [List.length_cons] at hlen
    have hval := value_length h
    have hbefore := before.length_le
    have hrest := elements_length rest
    omega

/-- Members take at least one unit. -/
theorem members_length {s r : List UInt16} {ms : List (List UInt16 × Tree)}
    (h : Members Whole s ms r) : r.length < s.length := by
  cases h with
  | last before hkey colon between h after =>
    have h₁ := before.length_le
    have h₂ := hkey.length_eq
    have h₃ := colon.length_le
    have h₄ := between.length_le
    have h₅ := value_length h
    have h₆ := after.length_le
    simp only [List.length_cons] at h₁ h₃ h₆
    omega
  | cons before hkey colon between h after rest =>
    have h₁ := before.length_le
    have h₂ := hkey.length_eq
    have h₃ := colon.length_le
    have h₄ := between.length_le
    have h₅ := value_length h
    have h₆ := after.length_le
    have h₇ := members_length rest
    simp only [List.length_cons] at h₁ h₃ h₆
    omega

end

/-! ## Unsigned integers -/

section

variable {s r raw : List UInt16}

/-- No sign, no fraction and no exponent. -/
def IsUnsigned (raw : List UInt16) : Prop := ∀ u ∈ raw, IsDigit u

theorem Digits.isUnsigned (h : Digits s raw r) : IsUnsigned raw := by
  induction h with
  | nil s => simp [IsUnsigned]
  | cons hu h ih => exact List.forall_mem_cons.mpr ⟨hu, ih⟩

theorem Whole.isUnsigned (h : Whole s raw r) : IsUnsigned raw := by
  cases h with
  | zero => exact List.forall_mem_cons.mpr ⟨by decide, by simp⟩
  | digits hu hne h => exact List.forall_mem_cons.mpr ⟨hu, h.isUnsigned⟩

/-- The numbers without a sign, a fraction and an exponent are the digits without a leading
    zero. -/
theorem number_isUnsigned : Number s raw r ∧ IsUnsigned raw ↔ Whole s raw r := by
  constructor
  · rintro ⟨h, hdigits⟩
    cases h with
    | minus hw hf he => exact absurd (hdigits 0x2D (List.mem_cons_self ..)) (by decide)
    | plain hw hf he =>
      rw [IsUnsigned, List.forall_mem_append, List.forall_mem_append] at hdigits
      obtain ⟨⟨-, hfraction⟩, hexponent⟩ := hdigits
      cases hf with
      | present => exact absurd (hfraction 0x2E (List.mem_cons_self ..)) (by decide)
      | absent =>
        cases he with
        | absent => simpa using hw
        | plain he =>
          have hbad := hexponent _ (List.mem_cons_self ..)
          rcases he with rfl | rfl <;> exact absurd hbad (by decide)
        | signed he =>
          have hbad := hexponent _ (List.mem_cons_self ..)
          rcases he with rfl | rfl <;> exact absurd hbad (by decide)
  · intro h
    have hnumber := Number.plain h (.absent r) (.absent r)
    rw [List.append_nil, List.append_nil] at hnumber
    exact ⟨hnumber, h.isUnsigned⟩

end

/-! ## What a string stands for -/

/-- The value of a hexadecimal digit. -/
def hexValue (u : UInt16) : ℕ :=
  if u.toNat ≤ 0x39 then u.toNat - 0x30
  else if u.toNat ≤ 0x46 then u.toNat - 0x37
  else u.toNat - 0x57

/-- The text that the text of a string stands for, when that is well formed. -/
def unescape : List UInt16 → Option (List UInt16)
  | [] => some []
  | [u] => if IsPlain u then some [u] else none
  | u :: v :: rest =>
    if u ≠ 0x5C then if IsPlain u then (unescape (v :: rest)).map (u :: ·) else none
    else if v ≠ 0x75 then
      match escaped v with
      | some w => (unescape rest).map (w :: ·)
      | none => none
    else
      match rest with
      | a :: b :: c :: d :: rest =>
        if IsHex a ∧ IsHex b ∧ IsHex c ∧ IsHex d then
          (unescape rest).map (UInt16.ofNat
            (((hexValue a * 16 + hexValue b) * 16 + hexValue c) * 16 + hexValue d) :: ·)
        else none
      | _ => none

/-- A plain unit stands for itself. -/
theorem unescape_plain {u : UInt16} (hu : IsPlain u) (t : List UInt16) :
    unescape (u :: t) = (unescape t).map (u :: ·) := by
  cases t with
  | nil => exact if_pos hu
  | cons v t =>
    rw [unescape.eq_def]
    dsimp only
    rw [if_pos hu.2.2, if_pos hu]

/-- A backslash and a letter stand for that letter's unit. -/
theorem unescape_escape {v w : UInt16} (hv : escaped v = some w) (t : List UInt16) :
    unescape (0x5C :: v :: t) = (unescape t).map (w :: ·) := by
  have hne : v ≠ 0x75 := by
    rintro rfl
    cases hv
  rw [unescape.eq_def]
  dsimp only
  rw [if_neg (by simp), if_pos hne, hv]

/-- A backslash, `u` and four hex digits stand for the unit they spell. -/
theorem unescape_unicode {a b c d : UInt16} (ha : IsHex a) (hb : IsHex b) (hc : IsHex c)
    (hd : IsHex d) (t : List UInt16) : unescape (0x5C :: 0x75 :: a :: b :: c :: d :: t)
      = (unescape t).map (UInt16.ofNat
        (((hexValue a * 16 + hexValue b) * 16 + hexValue c) * 16 + hexValue d) :: ·) := by
  rw [unescape.eq_def]
  dsimp only
  rw [if_neg (by simp), if_neg (by simp), if_pos ⟨ha, hb, hc, hd⟩]

/-! ## Trees -/

/-- All numbers of a tree have the property. -/
inductive Tree.All (P : List UInt16 → Prop) : Tree → Prop where
  | array {elements : List Tree} (h : ∀ t ∈ elements, t.All P) : (Tree.array elements).All P
  | object {members : List (List UInt16 × Tree)} (h : ∀ m ∈ members, m.2.All P) :
      (Tree.object members).All P
  | string (raw : List UInt16) : (Tree.string raw).All P
  | number {raw : List UInt16} (h : P raw) : (Tree.number raw).All P
  | true : Tree.true.All P
  | false : Tree.false.All P
  | null : Tree.null.All P

section

variable {num : List UInt16 → List UInt16 → List UInt16 → Prop} {P : List UInt16 → Prop}

mutual

/-- A condition on the numbers of a text is a condition on the tree that is read. -/
theorem value_split {s r : List UInt16} {t : Tree}
    (h : Value (fun s raw r => num s raw r ∧ P raw) s t r) : Value num s t r ∧ t.All P := by
  cases h with
  | string h => exact ⟨.string h, .string _⟩
  | number h => exact ⟨.number h.1, .number h.2⟩
  | true => exact ⟨.true r, .true⟩
  | false => exact ⟨.false r, .false⟩
  | null => exact ⟨.null r, .null⟩
  | emptyArray h => exact ⟨.emptyArray h, .array (by simp)⟩
  | array h =>
    obtain ⟨h, hall⟩ := elements_split h
    exact ⟨.array h, .array hall⟩
  | emptyObject h => exact ⟨.emptyObject h, .object (by simp)⟩
  | object h =>
    obtain ⟨h, hall⟩ := members_split h
    exact ⟨.object h, .object hall⟩

theorem elements_split {s r : List UInt16} {ts : List Tree}
    (h : Elements (fun s raw r => num s raw r ∧ P raw) s ts r) :
    Elements num s ts r ∧ ∀ t ∈ ts, t.All P := by
  cases h with
  | last before h after =>
    obtain ⟨h, hall⟩ := value_split h
    exact ⟨.last before h after, by simpa using hall⟩
  | cons before h after rest =>
    obtain ⟨h, hall⟩ := value_split h
    obtain ⟨rest, hrest⟩ := elements_split rest
    exact ⟨.cons before h after rest, by simpa using ⟨hall, hrest⟩⟩

theorem members_split {s r : List UInt16} {ms : List (List UInt16 × Tree)}
    (h : Members (fun s raw r => num s raw r ∧ P raw) s ms r) :
    Members num s ms r ∧ ∀ m ∈ ms, m.2.All P := by
  cases h with
  | last before hkey colon between h after =>
    obtain ⟨h, hall⟩ := value_split h
    exact ⟨.last before hkey colon between h after, by simpa using hall⟩
  | cons before hkey colon between h after rest =>
    obtain ⟨h, hall⟩ := value_split h
    obtain ⟨rest, hrest⟩ := members_split rest
    exact ⟨.cons before hkey colon between h after rest, List.forall_mem_cons.mpr ⟨hall, hrest⟩⟩

end

mutual

/-- And back. -/
theorem value_join {s r : List UInt16} {t : Tree} (h : Value num s t r) (hall : t.All P) :
    Value (fun s raw r => num s raw r ∧ P raw) s t r := by
  cases h with
  | string h => exact .string h
  | number h =>
    cases hall with
    | number hp => exact .number ⟨h, hp⟩
  | true => exact .true r
  | false => exact .false r
  | null => exact .null r
  | emptyArray h => exact .emptyArray h
  | array h =>
    cases hall with
    | array hall => exact .array (elements_join h hall)
  | emptyObject h => exact .emptyObject h
  | object h =>
    cases hall with
    | object hall => exact .object (members_join h hall)

theorem elements_join {s r : List UInt16} {ts : List Tree} (h : Elements num s ts r)
    (hall : ∀ t ∈ ts, t.All P) : Elements (fun s raw r => num s raw r ∧ P raw) s ts r := by
  cases h with
  | last before h after => exact .last before (value_join h (hall _ (List.mem_cons_self ..))) after
  | cons before h after rest =>
    obtain ⟨hfirst, hrest⟩ := List.forall_mem_cons.mp hall
    exact .cons before (value_join h hfirst) after (elements_join rest hrest)

theorem members_join {s r : List UInt16} {ms : List (List UInt16 × Tree)} (h : Members num s ms r)
    (hall : ∀ m ∈ ms, m.2.All P) : Members (fun s raw r => num s raw r ∧ P raw) s ms r := by
  cases h with
  | last before hkey colon between h after =>
    exact .last before hkey colon between (value_join h (hall _ (List.mem_cons_self ..))) after
  | cons before hkey colon between h after rest =>
    obtain ⟨hfirst, hrest⟩ := List.forall_mem_cons.mp hall
    exact .cons before hkey colon between (value_join h hfirst) after (members_join rest hrest)

end

/-- Where only numbers with a property are read, the values are those all of whose numbers have
    it. -/
theorem value_all {s r : List UInt16} {t : Tree} :
    Value (fun s raw r => num s raw r ∧ P raw) s t r ↔ Value num s t r ∧ t.All P :=
  ⟨value_split, fun h => value_join h.1 h.2⟩

end

end JsonGrammar

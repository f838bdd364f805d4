import EcoCompiler.ElmConstraint
import EcoCompiler.Primitives

/-! # The written form of versions and constraints

    * `Version.parser`, `Constraint.parser` — the parsers;
    * `Version.toChars`, `Constraint.toChars` — what they read, written;
    * `Constraint.accepted_iff` — the constraints that the parser accepts;
    * `Constraint.operations_exact_iff` — the operations on them. -/

open Primitives

/-- `String.fromInt` of a number that is not negative. -/
def decimal (n : ℕ) : Text :=
  if n = 0 then ascii "0" else (Nat.digits 10 n).reverse.map fun d => UInt16.ofNat (48 + d)

/-- `String.fromInt`. -/
def fromInt : ℤ → Text
  | .ofNat n => decimal n
  | .negSucc n => ascii "-" ++ decimal (n + 1)

namespace Version

def toChars (v : Version) : Text :=
  fromInt v.major ++ ascii "." ++ fromInt v.minor ++ ascii "." ++ fromInt v.patch

/-- `maxComponent`. -/
def maxComponent : ℕ := 65535

/-- `isDigit`, of a code point. -/
def isDigit (word : ℕ) : Bool := 48 ≤ word && word ≤ 57

/-- `chompWord16`. -/
def chompWord16 (src : Text) (pos end_ total : ℕ) : ℕ × ℕ :=
  if end_ ≤ pos then (total, pos)
  else
    let word := unsafeIndex src pos
    if isDigit word then
      chompWord16 src (pos + 1) end_ (min (maxComponent + 1) (10 * total + (word - 48)))
    else (total, pos)
termination_by end_ - pos

/-- `numberParser`. -/
def numberParser : Parser (ℕ × ℕ) ℕ := fun st =>
  if st.end_ ≤ st.pos then .eerr st.row st.col Prod.mk
  else
    let word := unsafeIndex st.src st.pos
    if word = 48 then .cok 0 { st with pos := st.pos + 1, col := st.col + 1 }
    else if isDigit word then
      let (total, newPos) := chompWord16 st.src (st.pos + 1) st.end_ (word - 48)
      if maxComponent < total then .cerr st.row st.col Prod.mk
      else .cok total { st with pos := newPos, col := st.col + (newPos - st.pos) }
    else .eerr st.row st.col Prod.mk

def parser : Parser (ℕ × ℕ) Version :=
  numberParser |> andThen fun (major : ℕ) =>
    (word1 '.' Prod.mk |> andThen fun _ => numberParser) |> andThen fun (minor : ℕ) =>
      (word1 '.' Prod.mk |> andThen fun _ => numberParser) |> map fun (patch : ℕ) =>
        ⟨major, minor, patch⟩

end Version

namespace Constraint

/-- `Error`. -/
inductive Error where
  | BadFormat (row col : ℕ)
  | InvalidRange (lower higher : Version)

/-- `opToChars`. -/
def opToChars : Op → Text
  | .Less => ascii " < "
  | .LessOrEqual => ascii " <= "

def toChars (c : Constraint) : Text :=
  c.lower.toChars ++ opToChars c.lowerOp ++ ascii "v" ++ opToChars c.upperOp ++ c.upper.toChars

/-- `parseVersion`. -/
def parseVersion : Parser Error Version :=
  specialize (fun p _ _ => .BadFormat p.1 p.2) Version.parser

/-- `parseOp`. -/
def parseOp : Parser Error Op :=
  word1 '<' .BadFormat |> andThen fun _ =>
    oneOfWithFallback [word1 '=' .BadFormat |> map fun _ => .LessOrEqual] .Less

/-- The end of `parser`, once everything has been read. -/
def checkRange (lower : Version) (loOp hiOp : Op) (higher : Version) : Parser Error Constraint :=
  fun st =>
    if lower.compare higher = .lt then .eok ⟨lower, loOp, hiOp, higher⟩ st
    else .eerr st.row st.col fun _ _ => .InvalidRange lower higher

def parser : Parser Error Constraint :=
  parseVersion |> andThen fun lower =>
    word1 ' ' .BadFormat |> andThen fun _ =>
      parseOp |> andThen fun loOp =>
        word1 ' ' .BadFormat |> andThen fun _ =>
          word1 'v' .BadFormat |> andThen fun _ =>
            word1 ' ' .BadFormat |> andThen fun _ =>
              parseOp |> andThen fun hiOp =>
                word1 ' ' .BadFormat |> andThen fun _ =>
                  parseVersion |> andThen fun higher => checkRange lower loOp hiOp higher

end Constraint

/-! ## Numbers -/

section

/-- The value of a run of digits, after a value already read. -/
def digitsValue (total : ℕ) (ds : List ℕ) : ℕ := ds.foldl (fun t d => 10 * t + d) total

/-- A number is the value of its decimals. -/
theorem digitsValue_reverse_digits (n : ℕ) : digitsValue 0 (Nat.digits 10 n).reverse = n := by
  have hfold : digitsValue 0 (Nat.digits 10 n).reverse = Nat.ofDigits 10 (Nat.digits 10 n) := by
    rw [Nat.ofDigits_eq_foldr, digitsValue, List.foldl_reverse]
    congr 1
    funext d t
    simp [Nat.add_comm]
  rw [hfold, Nat.ofDigits_digits]

/-- The unit of a digit. -/
def digitUnit (d : ℕ) : UInt16 := UInt16.ofNat (48 + d)

theorem digitUnit_toNat {d : ℕ} (h : d < 10) : (digitUnit d).toNat = 48 + d := by
  rw [digitUnit, UInt16.toNat_ofNat']
  omega

/-- What follows a number in what is written: nothing, or a unit before the digits. -/
def Stops (t : Text) : Prop := ∀ u t', t = u :: t' → u.toNat < 48

theorem stops_of_lt {u : UInt16} (h : u.toNat < 48) (t : Text) : Stops (u :: t) := by
  intro u' t' heq
  rw [← (List.cons.inj heq).1]
  exact h

namespace Version

/-- The total stays at the cap once it is reached. -/
theorem le_digitsValue (total : ℕ) (ds : List ℕ) : total ≤ digitsValue total ds := by
  induction ds generalizing total with
  | nil => exact le_rfl
  | cons d ds ih => exact le_trans (by omega) (ih (10 * total + d))

theorem digitsValue_mono {a b : ℕ} (h : a ≤ b) (ds : List ℕ) :
    digitsValue a ds ≤ digitsValue b ds := by
  induction ds generalizing a b with
  | nil => exact h
  | cons d ds ih => exact ih (Nat.add_le_add_right (Nat.mul_le_mul_left 10 h) d)

/-- Capping at each digit is capping at the end. -/
theorem cap_digitsValue (cap total : ℕ) (ds : List ℕ) :
    min cap (digitsValue (min cap total) ds) = min cap (digitsValue total ds) := by
  rcases Nat.le_total total cap with h | h
  · rw [Nat.min_eq_right h]
  · have hle := le_digitsValue cap ds
    have hmono := digitsValue_mono h ds
    rw [Nat.min_eq_left h, Nat.min_eq_left hle, Nat.min_eq_left (hle.trans hmono)]

theorem isDigit_iff {word : ℕ} : isDigit word = true ↔ 48 ≤ word ∧ word ≤ 57 := by
  simp [isDigit]

/-- Digits that no digit follows are read to their value, as far as it fits. -/
theorem chompWord16_reads {s : State} (inside : s.end_ ≤ s.src.length) {ds : List ℕ} {t : Text}
    (hds : ∀ d ∈ ds, d < 10) (ht : Stops t) (h : s.rest = ds.map digitUnit ++ t) (total : ℕ)
    (htotal : total ≤ maxComponent + 1) :
    chompWord16 s.src s.pos s.end_ total
      = (min (maxComponent + 1) (digitsValue total ds), s.pos + ds.length) := by
  induction ds generalizing s total with
  | nil =>
    have hmin : min (maxComponent + 1) (digitsValue total []) = total := Nat.min_eq_right htotal
    rw [hmin, chompWord16]
    cases t with
    | nil => rw [if_pos (Nat.not_lt.mp (State.not_pos_lt_of_rest inside h))]; rfl
    | cons u t' =>
      have hu := ht u t' rfl
      have hhigh : ¬ IsHigh u.toNat := fun hh => by
        have hle := hh.1
        omega
      have hnot : ¬ isDigit u.toNat = true := by
        rw [isDigit_iff]
        omega
      rw [if_neg (Nat.not_le.mpr (State.pos_lt_of_rest h)), unsafeIndex_of_rest h hhigh]
      simp only [hnot, if_false, List.length_nil, Nat.add_zero, Bool.false_eq_true]
  | cons d ds ih =>
    have hd := hds d (List.mem_cons_self ..)
    have hunit := digitUnit_toNat hd
    have hhigh : ¬ IsHigh (digitUnit d).toNat := fun hh => by
      have hle := hh.1
      omega
    have hdigit : isDigit (digitUnit d).toNat = true := isDigit_iff.mpr (by omega)
    have hrest : (s.advance 1).rest = ds.map digitUnit ++ t :=
      State.rest_advance (l := [digitUnit d]) h
    have hnext := ih (s := s.advance 1) inside (fun e he => hds e (List.mem_cons_of_mem d he))
      hrest (min (maxComponent + 1) (10 * total + d)) (Nat.min_le_left _ _)
    rw [cap_digitsValue] at hnext
    rw [chompWord16, if_neg (Nat.not_le.mpr (State.pos_lt_of_rest h)), unsafeIndex_of_rest h hhigh]
    simp only [hdigit, if_true]
    rw [hunit, Nat.add_sub_cancel_left]
    refine hnext.trans (Prod.ext rfl ?_)
    show s.pos + 1 + ds.length = s.pos + (ds.length + 1)
    omega

/-- A number that is written and not too large is read back. -/
theorem numberParser_reads {n : ℕ} (hn : n ≤ maxComponent) :
    Reads numberParser (decimal n) n Stops := by
  intro s t inside h ht
  refine Or.inl ?_
  -- a zero stands alone; any other number starts with another digit
  by_cases hzero : n = 0
  · subst hzero
    have hrest : s.rest = 48 :: t := h
    have hchar := unsafeIndex_of_rest hrest (by decide)
    rw [numberParser, if_neg (Nat.not_le.mpr (State.pos_lt_of_rest hrest)), hchar]
    rfl
  · have hvalue := digitsValue_reverse_digits n
    have hlast := Nat.getLast_digit_ne_zero 10 hzero
    have hds : ∀ d ∈ (Nat.digits 10 n).reverse, d < 10 := fun d hd =>
      Nat.digits_lt_base (by decide) (List.mem_reverse.mp hd)
    have hdecimal : decimal n = (Nat.digits 10 n).reverse.map digitUnit := if_neg hzero
    rw [hdecimal] at h ⊢
    cases hrev : (Nat.digits 10 n).reverse with
    | nil =>
      rw [List.reverse_eq_nil_iff, Nat.digits_eq_nil_iff_eq_zero] at hrev
      exact absurd hrev hzero
    | cons d ds =>
      have hfirst : d ≠ 0 := by
        have hdigits : Nat.digits 10 n = ds.reverse ++ [d] := by
          rw [← List.reverse_cons, ← hrev, List.reverse_reverse]
        simp only [hdigits, List.getLast_append_singleton] at hlast
        exact hlast
      rw [hrev] at h hds hvalue
      have hd := hds d (List.mem_cons_self ..)
      have hunit := digitUnit_toNat hd
      have hhigh : ¬ IsHigh (digitUnit d).toNat := fun hh => by
        have hle := hh.1
        omega
      have hdigit : isDigit (digitUnit d).toNat = true := isDigit_iff.mpr (by omega)
      have hrest : (s.advance 1).rest = ds.map digitUnit ++ t :=
        State.rest_advance (l := [digitUnit d]) h
      have hcap : maxComponent + 1 = 65536 := rfl
      have hchomp := chompWord16_reads (s := s.advance 1) inside
        (fun e he => hds e (List.mem_cons_of_mem d he)) ht hrest d (by omega)
      -- the cap cuts nothing off, since the number is below it
      have htotal : digitsValue d ds = n := by
        rw [← hvalue, digitsValue, digitsValue, List.foldl_cons, Nat.mul_zero, Nat.zero_add]
      have hne : (digitUnit d).toNat ≠ 48 := by omega
      have hchomp' : chompWord16 s.src (s.pos + 1) s.end_ d
          = (min (maxComponent + 1) n, s.pos + 1 + ds.length) := htotal ▸ hchomp
      rw [numberParser, if_neg (Nat.not_le.mpr (State.pos_lt_of_rest h)),
        unsafeIndex_of_rest h hhigh]
      simp only [hne, if_false, hdigit, if_true]
      rw [hunit, Nat.add_sub_cancel_left, hchomp', Nat.min_eq_right (by omega)]
      simp only [Nat.not_lt.mpr hn, if_false]
      have hpos : s.pos + 1 + ds.length = s.pos + (List.map digitUnit (d :: ds)).length := by
        rw [List.length_map, List.length_cons]
        omega
      rw [hpos, Nat.add_sub_cancel_left]
      rfl

/-- A version that can be read. -/
def Readable (v : Version) : Prop :=
  ∃ major minor patch : ℕ, v = ⟨major, minor, patch⟩ ∧ major ≤ maxComponent ∧
    minor ≤ maxComponent ∧ patch ≤ maxComponent

/-- A version that is written is read back. -/
theorem parser_reads {v : Version} (h : v.Readable) : Reads parser v.toChars v Stops := by
  obtain ⟨major, minor, patch, rfl, hmajor, hminor, hpatch⟩ := h
  have hdot : Reads (word1 '.' (x := ℕ × ℕ) Prod.mk) [46] () fun _ => True :=
    word1_reads Prod.mk rfl (by decide)
  have htext : toChars ⟨major, minor, patch⟩
      = decimal major ++ (([46] ++ decimal minor) ++ ([46] ++ decimal patch)) := by
    rw [toChars]
    simp only [List.append_assoc]
    rfl
  rw [htext]
  have hnext : ∀ {n : ℕ}, n ≤ maxComponent → Reads (word1 '.' (x := ℕ × ℕ) Prod.mk |> andThen
      fun _ => numberParser) ([46] ++ decimal n) n Stops := fun hn =>
    hdot.andThen (numberParser_reads hn) fun _ _ => trivial
  exact Reads.andThen (numberParser_reads hmajor) (Reads.andThen (hnext hminor)
      ((hnext hpatch).map (f := fun patch : ℕ => (⟨major, minor, patch⟩ : Version)))
      fun t _ => stops_of_lt (u := 46) (by decide) _)
    fun t _ => stops_of_lt (u := 46) (by decide) _

/-- A number that is read is not too large. -/
theorem numberParser_gives {s s' : State} {n : ℕ} (h : (numberParser s).Gives n s') :
    n ≤ maxComponent := by
  rw [numberParser] at h
  dsimp only at h
  split at h
  · rcases h with h | h <;> cases h
  split at h
  · rcases h with h | h
    · rw [← (PStep.cok.inj h).1]
      exact Nat.zero_le _
    · cases h
  split at h
  · split at h
    · rcases h with h | h <;> cases h
    · next hle =>
      rcases h with h | h
      · rw [← (PStep.cok.inj h).1]
        exact Nat.not_lt.mp hle
      · cases h
  · rcases h with h | h <;> cases h

theorem parser_gives {s s' : State} {v : Version} (h : (parser s).Gives v s') : v.Readable := by
  obtain ⟨major, s₁, hmajor, h⟩ := andThen_gives h
  obtain ⟨minor, s₂, hminor, h⟩ := andThen_gives h
  obtain ⟨patch, hpatch, rfl⟩ := map_gives h
  obtain ⟨-, s₃, -, hminor⟩ := andThen_gives hminor
  obtain ⟨-, s₄, -, hpatch⟩ := andThen_gives hpatch
  exact ⟨major, minor, patch, rfl, numberParser_gives hmajor, numberParser_gives hminor,
    numberParser_gives hpatch⟩

end Version

namespace Constraint

/-- An operator without the spaces around it. -/
def opText : Op → Text
  | .Less => [60]
  | .LessOrEqual => [60, 61]

/-- An operator is written with a blank on either side. -/
theorem opToChars_eq (op : Op) : opToChars op = [32] ++ (opText op ++ [32]) := by
  cases op <;> rfl

/-- Nothing follows that would be read as a part of an operator. -/
theorem parseOp_reads (op : Op) :
    Reads parseOp (opText op) op
      fun t => ∀ u t', t = u :: t' → u.toNat = 32 := by
  have hless : Reads (word1 '<' Error.BadFormat) [60] () fun _ => True :=
    word1_reads Error.BadFormat rfl (by decide)
  cases op with
  | Less =>
    refine Reads.andThen (m := []) hless (fun s t inside hrest ht => Or.inr ?_) fun _ _ => trivial
    have hnot : ∀ u t', s.rest = u :: t' → ¬ IsHigh u.toNat ∧ u.toNat ≠ '='.toNat := by
      intro u t' heq
      rw [hrest, List.nil_append] at heq
      rw [ht u t' heq]
      exact ⟨by decide, by decide⟩
    rw [oneOfWithFallback, oowfHelp, map, word1_fails Error.BadFormat inside hnot]
    rfl
  | LessOrEqual =>
    have hequal : Reads (word1 '=' Error.BadFormat) [61] () fun _ => True :=
      word1_reads Error.BadFormat rfl (by decide)
    refine Reads.andThen (m := [61]) hless (fun s t inside hrest ht => ?_) fun _ _ => trivial
    have hmap := (hequal.map (f := fun _ => Op.LessOrEqual)) s t inside hrest trivial
    rw [oneOfWithFallback, oowfHelp]
    rcases hmap with hmap | hmap
    · rw [hmap]
      exact Or.inl rfl
    · rw [hmap]
      exact Or.inr rfl

/-- The constraints that can be read: both versions can, and the lower one is the earlier. -/
def Readable (c : Constraint) : Prop := c.lower.Readable ∧ c.upper.Readable ∧ c.lower < c.upper

/-- A range in order is accepted as it is. -/
theorem checkRange_reads {c : Constraint} (h : c.lower < c.upper) :
    Reads (checkRange c.lower c.lowerOp c.upperOp c.upper) [] c Stops := by
  intro s t _ _ _
  have hcompare : c.lower.compare c.upper = .lt := by
    rw [Version.compare_eq, cmp_eq_lt_iff]
    exact h
  refine Or.inr ?_
  rw [checkRange, if_pos hcompare]
  rfl

/-- A constraint that is written is read back. -/
theorem parser_reads {c : Constraint} (h : c.Readable) : Reads parser c.toChars c Stops := by
  obtain ⟨hlower, hupper, hlt⟩ := h
  have hspace : Reads (word1 ' ' Error.BadFormat) [32] () fun _ => True :=
    word1_reads Error.BadFormat rfl (by decide)
  have hv : Reads (word1 'v' Error.BadFormat) [118] () fun _ => True :=
    word1_reads Error.BadFormat rfl (by decide)
  have hversion : ∀ {v : Version}, v.Readable → Reads parseVersion v.toChars v Stops :=
    fun hv => (Version.parser_reads hv).specialize
  have first : ∀ (m t : Text) (u : UInt16) (t' : Text),
      [32] ++ m ++ t = u :: t' → u.toNat = 32 := by
    intro m t u t' heq
    rw [← (List.cons.inj heq).1]
    rfl
  have htext : c.toChars = c.lower.toChars ++ ([32] ++ (opText c.lowerOp ++ ([32] ++ ([118] ++
      ([32] ++ (opText c.upperOp ++ ([32] ++ (c.upper.toChars ++ [])))))))) := by
    rw [toChars, opToChars_eq, opToChars_eq]
    simp only [List.append_assoc, List.append_nil]
    rfl
  rw [htext]
  refine Reads.andThen (hversion hlower) (Reads.andThen hspace (Reads.andThen
    (parseOp_reads c.lowerOp) (Reads.andThen hspace (Reads.andThen hv (Reads.andThen hspace
    (Reads.andThen (parseOp_reads c.upperOp) (Reads.andThen hspace (Reads.andThen
    (hversion hupper) (checkRange_reads hlt) ?_) ?_) ?_) ?_) ?_) ?_) ?_) ?_) ?_
  · exact fun _ ht => ht
  · exact fun _ _ => trivial
  · exact fun t _ => first _ t
  · exact fun _ _ => trivial
  · exact fun _ _ => trivial
  · exact fun _ _ => trivial
  · exact fun t _ => first _ t
  · exact fun _ _ => trivial
  · exact fun t _ => stops_of_lt (u := 32) (by decide) _

/-- Only a range in order is accepted. -/
theorem checkRange_gives {lower higher : Version} {loOp hiOp : Op} {s s' : State} {c : Constraint}
    (h : (checkRange lower loOp hiOp higher s).Gives c s') :
    c = ⟨lower, loOp, hiOp, higher⟩ ∧ lower < higher := by
  rw [checkRange] at h
  split at h
  · next hcompare =>
    rw [Version.compare_eq, cmp_eq_lt_iff] at hcompare
    rcases h with h | h
    · cases h
    · exact ⟨(PStep.eok.inj h).1.symm, hcompare⟩
  · rcases h with h | h <;> cases h

theorem parser_gives {s s' : State} {c : Constraint} (h : (parser s).Gives c s') :
    c.Readable := by
  obtain ⟨lower, s₁, hlower, h⟩ := andThen_gives h
  obtain ⟨-, s₂, -, h⟩ := andThen_gives h
  obtain ⟨loOp, s₃, -, h⟩ := andThen_gives h
  obtain ⟨-, s₄, -, h⟩ := andThen_gives h
  obtain ⟨-, s₅, -, h⟩ := andThen_gives h
  obtain ⟨-, s₆, -, h⟩ := andThen_gives h
  obtain ⟨hiOp, s₇, -, h⟩ := andThen_gives h
  obtain ⟨-, s₈, -, h⟩ := andThen_gives h
  obtain ⟨higher, s₉, hhigher, h⟩ := andThen_gives h
  obtain ⟨rfl, hlt⟩ := checkRange_gives h
  exact ⟨Version.parser_gives (specialize_gives hlower),
    Version.parser_gives (specialize_gives hhigher), hlt⟩

/-- The parser accepts the constraint. -/
def Accepted (c : Constraint) : Prop := ∃ s s', (parser s).Gives c s'

/-- Parsing what is written, from its start, gives the constraint and comes to the end. -/
def RoundTrips (c : Constraint) : Prop :=
  (parser (initialState c.toChars)).Gives c
    ((initialState c.toChars).advance c.toChars.length)

/-- A readable constraint survives being written and read. -/
theorem Readable.roundTrips {c : Constraint} (h : c.Readable) : c.RoundTrips := by
  refine parser_reads h (initialState c.toChars) [] le_rfl ?_ fun u t' heq => (by cases heq)
  rw [List.append_nil]
  exact List.take_length

/-- The accepted constraints are the readable ones. -/
theorem accepted_iff (c : Constraint) : c.Accepted ↔ c.Readable := by
  constructor
  · rintro ⟨s, s', h⟩
    exact parser_gives h
  · intro h
    exact ⟨_, _, h.roundTrips⟩

/-! ## The versions that a constraint allows -/

/-- Both bounds are exclusive, and they are two patches of 0.19 that follow one another. -/
def BetweenPatches (c : Constraint) : Prop :=
  c.lowerOp = .Less ∧ c.upperOp = .Less ∧
    ∃ p : ℕ, c.lower = ⟨0, 19, p⟩ ∧ c.upper = ⟨0, 19, p + 1⟩

instance (c : Constraint) : Decidable c.BetweenPatches :=
  decidable_of_iff (c.lowerOp = .Less ∧ c.upperOp = .Less ∧ 0 ≤ c.lower.patch ∧
    c.lower = ⟨0, 19, c.lower.patch⟩ ∧ c.upper = ⟨0, 19, c.lower.patch + 1⟩) (by
    constructor
    · rintro ⟨hlo, hhi, hpatch, hlower, hupper⟩
      refine ⟨hlo, hhi, c.lower.patch.toNat, ?_, ?_⟩
      · rw [Int.toNat_of_nonneg hpatch]
        exact hlower
      · rw [Int.toNat_of_nonneg hpatch]
        exact hupper
    · rintro ⟨hlo, hhi, p, hlower, hupper⟩
      rw [hlower, hupper]
      exact ⟨hlo, hhi, Int.natCast_nonneg p, rfl, rfl⟩)

/-- An exclusive lower bound of an intersection with the supported versions is the
    constraint's own. -/
theorem laterLower_less {c : Constraint}
    (h : (laterLower c (untilNextMinor ⟨0, 19, 0⟩)).2 = .Less) :
    (laterLower c (untilNextMinor ⟨0, 19, 0⟩)).1 = c.lower ∧ c.lowerOp = .Less := by
  rw [laterLower] at h ⊢
  split at h
  · cases h
  · refine ⟨rfl, ?_⟩
    cases hop : c.lowerOp with
    | Less => rfl
    | LessOrEqual =>
      rw [hop] at h
      cases h
  · exact ⟨rfl, h⟩

/-- An upper bound before 0.20.0 is the constraint's own. -/
theorem earlierUpper_lt {c : Constraint}
    (h : (earlierUpper c (untilNextMinor ⟨0, 19, 0⟩)).1 ≠ ⟨0, 20, 0⟩) :
    earlierUpper c (untilNextMinor ⟨0, 19, 0⟩) = (c.upper, c.upperOp) := by
  rw [earlierUpper] at h ⊢
  split at h
  · rfl
  · next heq =>
    rw [Version.compare_eq, cmp_eq_eq_iff] at heq
    exact absurd heq h
  · exact absurd rfl h

/-- The bounds of an intersection with the supported versions. -/
theorem bounds_intersect (c : Constraint) :
    ⟨0, 19, 0⟩ ≤ (laterLower c (untilNextMinor ⟨0, 19, 0⟩)).1 ∧
    (earlierUpper c (untilNextMinor ⟨0, 19, 0⟩)).1 ≤ ⟨0, 20, 0⟩ ∧
    ((laterLower c (untilNextMinor ⟨0, 19, 0⟩)).1 = c.lower ∨
      (laterLower c (untilNextMinor ⟨0, 19, 0⟩)).1 = ⟨0, 19, 0⟩) ∧
    ((earlierUpper c (untilNextMinor ⟨0, 19, 0⟩)).1 = c.upper ∨
      (earlierUpper c (untilNextMinor ⟨0, 19, 0⟩)).1 = ⟨0, 20, 0⟩) := by
  rw [laterLower, earlierUpper]
  simp only [Version.compare_eq]
  constructor
  · split
    · exact le_rfl
    · next h => exact ((cmp_eq_eq_iff _ _).mp h).ge
    · next h => exact ((cmp_eq_gt_iff _ _).mp h).le
  constructor
  · split
    · next h => exact ((cmp_eq_lt_iff _ _).mp h).le
    · next h => exact ((cmp_eq_eq_iff _ _).mp h).le
    · exact le_rfl
  constructor
  · split
    · exact Or.inr rfl
    · exact Or.inl rfl
    · exact Or.inl rfl
  · split
    · exact Or.inl rfl
    · exact Or.inl rfl
    · exact Or.inr rfl

/-- A version before another one with the same patch number or a later one. -/
theorem exists_of_good {c : Constraint} (h : c.Readable) (good : c.goodElm = true)
    (hgap : ¬ c.BetweenPatches) : ∃ v, Supported v ∧ c.satisfies v = true := by
  obtain ⟨⟨major, minor, patch, hlower, -⟩, ⟨major', minor', patch', hupper, -⟩, -⟩ := h
  obtain ⟨hlo, hhi, hlo', hhi'⟩ := bounds_intersect c
  have hless := laterLower_less (c := c)
  have hlast := earlierUpper_lt (c := c)
  rw [goodElm] at good
  split at good
  case h_2 => cases good
  next r hr =>
  have hsat := satisfies_intersect hr
  rw [intersect_eq] at hr
  split at hr
  case isFalse => cases hr
  next hle =>
  obtain rfl := Option.some.inj hr
  rw [Version.compare_eq, ne_eq, cmp_eq_gt_iff, not_lt] at hle
  have found : ∀ v : Version, 0 ≤ v.patch →
      isLess (laterLower c (untilNextMinor ⟨0, 19, 0⟩)).2
        (laterLower c (untilNextMinor ⟨0, 19, 0⟩)).1 v = true →
      isLess (earlierUpper c (untilNextMinor ⟨0, 19, 0⟩)).2 v
        (earlierUpper c (untilNextMinor ⟨0, 19, 0⟩)).1 = true →
      ∃ v, Supported v ∧ c.satisfies v = true := by
    intro v hpatch h1 h2
    have hboth := (hsat v).mp (by rw [satisfies, h1, h2]; rfl)
    exact ⟨v, (satisfies_untilNextMinor hpatch).mp hboth.2, hboth.1⟩
  generalize laterLower c (untilNextMinor ⟨0, 19, 0⟩) = lo at *
  generalize earlierUpper c (untilNextMinor ⟨0, 19, 0⟩) = hi at *
  obtain ⟨lower, lowerOp⟩ := lo
  obtain ⟨upper, upperOp⟩ := hi
  dsimp only at *
  have hpatch : 0 ≤ lower.patch := by
    rcases hlo' with rfl | rfl
    · rw [hlower]
      exact Int.natCast_nonneg patch
    · exact le_rfl
  rw [Version.compare_eq, Bool.or_eq_true, beq_iff_eq, cmp_eq_lt_iff, Bool.and_eq_true, beq_iff_eq,
    beq_iff_eq] at good
  rcases good with hlt | ⟨rfl, rfl⟩
  · cases lowerOp with
    | LessOrEqual => exact found lower hpatch (isLess_lessOrEqual.mpr le_rfl) (isLess_of_lt _ hlt)
    | Less =>
      -- the next patch after the lower version
      obtain ⟨rfl, hop⟩ := hless rfl
      have hnatural : ∃ a b p : ℕ, upper = ⟨a, b, p⟩ := by
        rcases hhi' with rfl | rfl
        · exact ⟨major', minor', patch', hupper⟩
        · exact ⟨0, 20, 0, rfl⟩
      obtain ⟨a, b, p, rfl⟩ := hnatural
      rw [hlower, ← not_lt, Version.lt_iff] at hlo
      rw [← not_lt, Version.lt_iff] at hhi
      rw [hlower, Version.lt_iff] at hlt
      dsimp only at hlo hhi hlt
      have hsmall : major = 0 ∧ minor = 19 := by omega
      obtain ⟨rfl, rfl⟩ := hsmall
      have hnext : isLess .Less c.lower ⟨0, 19, patch + 1⟩ = true := by
        rw [isLess_less, hlower, Version.lt_iff]
        dsimp only
        omega
      have hbefore : (⟨0, 19, patch + 1⟩ : Version) < ⟨a, b, p⟩
          ∨ a = 0 ∧ b = 19 ∧ p = patch + 1 := by
        rw [Version.lt_iff]
        dsimp only
        omega
      rcases hbefore with hbefore | ⟨rfl, rfl, rfl⟩
      · exact found _ (by positivity) hnext (isLess_of_lt _ hbefore)
      · cases upperOp with
        | LessOrEqual =>
          exact found _ (by positivity) hnext (isLess_lessOrEqual.mpr (by push_cast; exact le_rfl))
        | Less =>
          have hend := hlast (by rw [ne_eq, Version.mk.injEq]; omega)
          obtain ⟨hu, huop⟩ := Prod.mk.inj hend
          refine absurd ⟨hop, huop.symm, patch, hlower, ?_⟩ hgap
          rw [← hu]
          push_cast
          rfl
  · exact found lower hpatch (isLess_lessOrEqual.mpr le_rfl) (isLess_lessOrEqual.mpr hle)

/-- Between two patches that follow one another there is no version. -/
theorem not_satisfies_of_between {c : Constraint} (h : c.BetweenPatches) (v : Version) :
    ¬ c.satisfies v = true := by
  obtain ⟨hlo, hhi, p, hlower, hupper⟩ := h
  rw [satisfies, Bool.and_eq_true, hlo, hhi, isLess_less, isLess_less, hlower, hupper,
    Version.lt_iff, Version.lt_iff]
  dsimp only
  omega

/-- A constraint strictly between two patches that follow one another counts as good. -/
theorem goodElm_of_between {c : Constraint} (h : c.BetweenPatches) : c.goodElm = true := by
  obtain ⟨-, -, p, hlower, hupper⟩ := h
  have hlt : c.lower < c.upper := by
    rw [hlower, hupper, Version.lt_iff]
    dsimp only
    omega
  have hlo : ¬ c.lower < ⟨0, 19, 0⟩ := by
    rw [hlower, Version.lt_iff]
    dsimp only
    omega
  have hhi : c.upper < ⟨0, 20, 0⟩ := by
    rw [hupper, Version.lt_iff]
    dsimp only
    omega
  have hlater : (laterLower c (untilNextMinor ⟨0, 19, 0⟩)).1 = c.lower := by
    rw [laterLower]
    split
    · next hcompare =>
      rw [Version.compare_eq, cmp_eq_lt_iff] at hcompare
      exact absurd hcompare hlo
    · rfl
    · rfl
  have hearlier : (earlierUpper c (untilNextMinor ⟨0, 19, 0⟩)).1 = c.upper := by
    have hcompare : c.upper.compare (untilNextMinor ⟨0, 19, 0⟩).upper = .lt := by
      rw [Version.compare_eq]
      exact (cmp_eq_lt_iff _ _).mpr hhi
    rw [earlierUpper, hcompare]
  have hcompare : c.lower.compare c.upper = .lt := by
    rw [Version.compare_eq]
    exact (cmp_eq_lt_iff _ _).mpr hlt
  rw [goodElm, intersect_eq, hlater, hearlier, if_pos (by rw [hcompare]; decide)]
  dsimp only
  rw [hcompare]
  rfl

/-- On a constraint that the parser accepts, and another one: an intersection allows what both
    allow, there is none only when nothing is allowed by both, what is written is read back, and
    `goodElm` holds when a supported version is allowed; all of it exactly when the constraint
    does not ask for a version between two patches of 0.19 that follow one another. -/
theorem operations_exact_iff {c₁ : Constraint} (h₁ : c₁.Accepted) (c₂ : Constraint) :
    ((∀ r, c₁.intersect c₂ = some r → ∀ v, r.satisfies v = true ↔
        c₁.satisfies v = true ∧ c₂.satisfies v = true) ∧
      (c₁.intersect c₂ = none → ∀ v, ¬ (c₁.satisfies v = true ∧ c₂.satisfies v = true)) ∧
      c₁.RoundTrips ∧
      (c₁.goodElm = true ↔ ∃ v, Supported v ∧ c₁.satisfies v = true)) ↔
    ¬ c₁.BetweenPatches := by
  have readable := (accepted_iff c₁).mp h₁
  refine ⟨fun ⟨_, _, _, hgood⟩ hgap => ?_, fun hgap => ⟨fun r hr v => satisfies_intersect hr v,
    fun hnone v ⟨hv₁, hv₂⟩ => intersect_eq_none hnone v hv₁ hv₂, readable.roundTrips,
    fun good => exists_of_good readable good hgap,
    fun ⟨v, hv, hsat⟩ => goodElm_of_satisfies hsat hv⟩⟩
  obtain ⟨v, -, hsat⟩ := hgood.mp (goodElm_of_between hgap)
  exact not_satisfies_of_between hgap v hsat

/-- A constraint that an application may write. -/
theorem readable_of_lt (a b p a' b' p' : ℕ) {lowerOp upperOp : Op}
    (h : a ≤ 65535 ∧ b ≤ 65535 ∧ p ≤ 65535) (h' : a' ≤ 65535 ∧ b' ≤ 65535 ∧ p' ≤ 65535)
    (hlt : (⟨a, b, p⟩ : Version) < ⟨a', b', p'⟩) :
    (⟨⟨a, b, p⟩, lowerOp, upperOp, ⟨a', b', p'⟩⟩ : Constraint).Readable :=
  ⟨⟨a, b, p, rfl, h⟩, ⟨a', b', p', rfl, h'⟩, hlt⟩

/-- Elm 0.19.2 and later, and everything from 0.19.0. -/
theorem operations_exact_elm :
    (⟨⟨0, 19, 2⟩, .LessOrEqual, .Less, ⟨0, 20, 0⟩⟩ : Constraint).goodElm = true ↔
      ∃ v, Supported v ∧
        (⟨⟨0, 19, 2⟩, .LessOrEqual, .Less, ⟨0, 20, 0⟩⟩ : Constraint).satisfies v = true := by
  have h₁ : (⟨⟨0, 19, 2⟩, .LessOrEqual, .Less, ⟨0, 20, 0⟩⟩ : Constraint).Accepted :=
    (accepted_iff _).mpr (readable_of_lt 0 19 2 0 20 0 (by decide) (by decide)
      (Version.lt_iff.mpr (by decide)))
  exact ((operations_exact_iff h₁ (untilNextMinor ⟨0, 19, 0⟩)).mpr (by decide)).2.2.2

/-- Between 0.19.0 and 0.19.1 there is no version, but the constraint is good. -/
theorem goodElm_between_patches :
    (⟨⟨0, 19, 0⟩, .Less, .Less, ⟨0, 19, 1⟩⟩ : Constraint).Accepted ∧
    (⟨⟨0, 19, 0⟩, .Less, .Less, ⟨0, 19, 1⟩⟩ : Constraint).goodElm = true ∧
    ¬ ∃ v, Supported v ∧
      (⟨⟨0, 19, 0⟩, .Less, .Less, ⟨0, 19, 1⟩⟩ : Constraint).satisfies v = true := by
  refine ⟨(accepted_iff _).mpr (readable_of_lt 0 19 0 0 19 1 (by decide) (by decide)
    (Version.lt_iff.mpr (by decide))), by decide, ?_⟩
  rintro ⟨v, -, hsat⟩
  exact not_satisfies_of_between ⟨rfl, rfl, 0, rfl, rfl⟩ v hsat

end Constraint

end

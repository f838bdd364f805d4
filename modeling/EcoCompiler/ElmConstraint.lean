import Mathlib

/-! # Versions and constraints

    `Compiler.Elm.Version` and `Compiler.Elm.Constraint`: the order of versions, the test
    of a version against a constraint and the intersection of constraints.

    * `compare_eq`: versions are ordered lexicographically;
    * `satisfies_intersect`: an intersection is satisfied by what satisfies both;
    * `intersect_eq_none`: without an intersection no version satisfies both. -/

/-- `Version`. -/
structure Version where
  major : Int
  minor : Int
  patch : Int
deriving DecidableEq, Repr

namespace Version

/-- `toComparable`. -/
def toComparable (v : Version) : ℤ ×ₗ ℤ ×ₗ ℤ := toLex (v.major, toLex (v.minor, v.patch))

theorem toComparable_injective : Function.Injective toComparable := by
  rintro ⟨a, b, c⟩ ⟨a', b', c'⟩ h
  simpa [toComparable] using h

/-- The order of versions. -/
instance : LinearOrder Version := LinearOrder.lift' toComparable toComparable_injective

theorem lt_iff {v w : Version} :
    v < w ↔ v.major < w.major ∨ v.major = w.major
      ∧ (v.minor < w.minor ∨ v.minor = w.minor ∧ v.patch < w.patch) := by
  show v.toComparable < w.toComparable ↔ _
  simp [toComparable, Prod.Lex.toLex_lt_toLex]

/-- `Basics.compare`. -/
def compareInt (a b : Int) : Ordering := if a < b then .lt else if a = b then .eq else .gt

/-- `compare`. -/
def compare (v w : Version) : Ordering :=
  match compareInt v.major w.major with
  | .eq =>
    match compareInt v.minor w.minor with
    | .eq => compareInt v.patch w.patch
    | minorRes => minorRes
  | majorRes => majorRes

/-- `one`. -/
def one : Version := ⟨1, 0, 0⟩

/-- `isSupportedElm`. -/
def isSupportedElm (v : Version) : Bool := v.major = 0 && v.minor = 19

/-- `maxVersion`. -/
def maxVersion : Version := ⟨2147483647, 0, 0⟩

/-- `bumpMinor`. -/
def bumpMinor (v : Version) : Version := ⟨v.major, v.minor + 1, 0⟩

/-- `bumpMajor`. -/
def bumpMajor (v : Version) : Version := ⟨v.major + 1, 0, 0⟩

/-- The comparison is that of the order. -/
theorem compare_eq (v w : Version) : v.compare w = cmp v w := by
  have hlt := lt_iff (v := v) (w := w)
  have hgt := lt_iff (v := w) (w := v)
  rw [compare, cmp, cmpUsing]
  simp only [hlt, hgt, compareInt]
  split <;> split <;> grind

end Version

/-- `Op`. -/
inductive Op where
  | Less
  | LessOrEqual
deriving DecidableEq, Repr

/-- `Constraint`, a `Range`. -/
structure Constraint where
  lower : Version
  lowerOp : Op
  upperOp : Op
  upper : Version
deriving DecidableEq, Repr

namespace Constraint

/-- `exactly`. -/
def exactly (v : Version) : Constraint := ⟨v, .LessOrEqual, .LessOrEqual, v⟩

/-- `anything`. -/
def anything : Constraint := ⟨Version.one, .LessOrEqual, .LessOrEqual, Version.maxVersion⟩

/-- `untilNextMajor`. -/
def untilNextMajor (v : Version) : Constraint := ⟨v, .LessOrEqual, .Less, v.bumpMajor⟩

/-- `untilNextMinor`. -/
def untilNextMinor (v : Version) : Constraint := ⟨v, .LessOrEqual, .Less, v.bumpMinor⟩

/-- `isLess`. -/
def isLess (op : Op) (lower upper : Version) : Bool :=
  match op with
  | .Less => lower.compare upper == .lt
  | .LessOrEqual => lower.compare upper != .gt

/-- `satisfies`. -/
def satisfies (c : Constraint) (version : Version) : Bool :=
  isLess c.lowerOp c.lower version && isLess c.upperOp version c.upper

/-- `intersect`. -/
def intersect (r₁ r₂ : Constraint) : Option Constraint :=
  let (newLo, newLop) :=
    match r₁.lower.compare r₂.lower with
    | .lt => (r₂.lower, r₂.lowerOp)
    | .eq => (r₁.lower, if Op.Less ∈ [r₁.lowerOp, r₂.lowerOp] then .Less else .LessOrEqual)
    | .gt => (r₁.lower, r₁.lowerOp)
  let (newHi, newHop) :=
    match r₁.upper.compare r₂.upper with
    | .lt => (r₁.upper, r₁.upperOp)
    | .eq => (r₁.upper, if Op.Less ∈ [r₁.upperOp, r₂.upperOp] then .Less else .LessOrEqual)
    | .gt => (r₂.upper, r₂.upperOp)
  if newLo.compare newHi ≠ Ordering.gt then some ⟨newLo, newLop, newHop, newHi⟩ else none

/-- `goodElm`. -/
def goodElm (c : Constraint) : Bool :=
  match c.intersect (untilNextMinor ⟨0, 19, 0⟩) with
  | some r =>
    r.lower.compare r.upper == .lt || (r.lowerOp == .LessOrEqual && r.upperOp == .LessOrEqual)
  | none => false

/-! ## What the operations mean -/

@[simp] theorem isLess_less {v w : Version} : isLess .Less v w = true ↔ v < w := by
  rw [isLess, Version.compare_eq, beq_iff_eq, cmp_eq_lt_iff]

@[simp] theorem isLess_lessOrEqual {v w : Version} :
    isLess .LessOrEqual v w = true ↔ v ≤ w := by
  rw [isLess, Version.compare_eq, bne_iff_ne, ne_eq, cmp_eq_gt_iff, not_lt]

/-- A version satisfies `exactly` one. -/
theorem satisfies_exactly {v w : Version} : (exactly v).satisfies w = true ↔ w = v := by
  rw [satisfies, exactly, Bool.and_eq_true, isLess_lessOrEqual, isLess_lessOrEqual]
  constructor
  · rintro ⟨hle, hge⟩
    exact le_antisymm hge hle
  · rintro rfl
    exact ⟨le_rfl, le_rfl⟩

/-- The tighter of two lower bounds. -/
theorem isLess_tighter (o p : Op) (v w : Version) :
    isLess (if Op.Less ∈ [o, p] then Op.Less else Op.LessOrEqual) v w = true
      ↔ isLess o v w = true ∧ isLess p v w = true := by
  cases o <;> cases p <;> simp
  · exact fun h => h.le
  · exact fun h => h.le

/-- Either comparison leaves the order. -/
theorem le_of_isLess {o : Op} {v w : Version} (h : isLess o v w = true) : v ≤ w := by
  cases o with
  | Less => exact (isLess_less.mp h).le
  | LessOrEqual => exact isLess_lessOrEqual.mp h

/-- A strict order meets either comparison. -/
theorem isLess_of_lt (o : Op) {v w : Version} (h : v < w) : isLess o v w = true := by
  cases o with
  | Less => exact isLess_less.mpr h
  | LessOrEqual => exact isLess_lessOrEqual.mpr h.le

/-- The lower bound of an intersection. -/
def laterLower (r₁ r₂ : Constraint) : Version × Op :=
  match r₁.lower.compare r₂.lower with
  | .lt => (r₂.lower, r₂.lowerOp)
  | .eq => (r₁.lower, if Op.Less ∈ [r₁.lowerOp, r₂.lowerOp] then .Less else .LessOrEqual)
  | .gt => (r₁.lower, r₁.lowerOp)

/-- The upper bound of an intersection. -/
def earlierUpper (r₁ r₂ : Constraint) : Version × Op :=
  match r₁.upper.compare r₂.upper with
  | .lt => (r₁.upper, r₁.upperOp)
  | .eq => (r₁.upper, if Op.Less ∈ [r₁.upperOp, r₂.upperOp] then .Less else .LessOrEqual)
  | .gt => (r₂.upper, r₂.upperOp)

theorem intersect_eq (r₁ r₂ : Constraint) :
    r₁.intersect r₂ =
      if (laterLower r₁ r₂).1.compare (earlierUpper r₁ r₂).1 ≠ Ordering.gt then
        some ⟨(laterLower r₁ r₂).1, (laterLower r₁ r₂).2, (earlierUpper r₁ r₂).2,
          (earlierUpper r₁ r₂).1⟩
      else none := rfl

/-- The later lower bound bounds as both do. -/
theorem isLess_laterLower (r₁ r₂ : Constraint) (v : Version) :
    isLess (laterLower r₁ r₂).2 (laterLower r₁ r₂).1 v = true
      ↔ isLess r₁.lowerOp r₁.lower v = true ∧ isLess r₂.lowerOp r₂.lower v = true := by
  rw [laterLower]
  split
  · next h =>
    rw [Version.compare_eq, cmp_eq_lt_iff] at h
    exact (and_iff_right_of_imp fun hv =>
      isLess_of_lt _ (lt_of_lt_of_le h (le_of_isLess hv))).symm
  · next h =>
    rw [Version.compare_eq, cmp_eq_eq_iff] at h
    rw [isLess_tighter, h]
  · next h =>
    rw [Version.compare_eq, cmp_eq_gt_iff] at h
    exact (and_iff_left_of_imp fun hv =>
      isLess_of_lt _ (lt_of_lt_of_le h (le_of_isLess hv))).symm

/-- The earlier upper bound bounds as both do. -/
theorem isLess_earlierUpper (r₁ r₂ : Constraint) (v : Version) :
    isLess (earlierUpper r₁ r₂).2 v (earlierUpper r₁ r₂).1 = true
      ↔ isLess r₁.upperOp v r₁.upper = true ∧ isLess r₂.upperOp v r₂.upper = true := by
  rw [earlierUpper]
  split
  · next h =>
    rw [Version.compare_eq, cmp_eq_lt_iff] at h
    exact (and_iff_left_of_imp fun hv =>
      isLess_of_lt _ (lt_of_le_of_lt (le_of_isLess hv) h)).symm
  · next h =>
    rw [Version.compare_eq, cmp_eq_eq_iff] at h
    rw [isLess_tighter, h]
  · next h =>
    rw [Version.compare_eq, cmp_eq_gt_iff] at h
    exact (and_iff_right_of_imp fun hv =>
      isLess_of_lt _ (lt_of_le_of_lt (le_of_isLess hv) h)).symm

/-- An intersection is satisfied by what satisfies both. -/
theorem satisfies_intersect {r₁ r₂ r : Constraint} (h : r₁.intersect r₂ = some r)
    (v : Version) :
    r.satisfies v = true ↔ r₁.satisfies v = true ∧ r₂.satisfies v = true := by
  rw [intersect_eq] at h
  split at h
  · cases h
    have hlo := isLess_laterLower r₁ r₂ v
    have hhi := isLess_earlierUpper r₁ r₂ v
    simp only [satisfies, Bool.and_eq_true, hlo, hhi]
    exact and_and_and_comm
  · cases h

/-- Without an intersection no version satisfies both. -/
theorem intersect_eq_none {r₁ r₂ : Constraint} (h : r₁.intersect r₂ = none) (v : Version)
    (h₁ : r₁.satisfies v = true) (h₂ : r₂.satisfies v = true) : False := by
  rw [satisfies, Bool.and_eq_true] at h₁ h₂
  have hlo := (isLess_laterLower r₁ r₂ v).mpr ⟨h₁.1, h₂.1⟩
  have hhi := (isLess_earlierUpper r₁ r₂ v).mpr ⟨h₁.2, h₂.2⟩
  rw [intersect_eq, if_pos] at h
  · cases h
  · rw [Version.compare_eq, ne_eq, cmp_eq_gt_iff, not_lt]
    exact le_trans (le_of_isLess hlo) (le_of_isLess hhi)

/-! ## Supported versions of Elm -/

/-- A version that this compiler supports: some 0.19.x. -/
def Supported (v : Version) : Prop := v.isSupportedElm = true ∧ 0 ≤ v.patch

/-- The range of the versions that this compiler supports. -/
theorem satisfies_untilNextMinor {v : Version} (h : 0 ≤ v.patch) :
    (untilNextMinor ⟨0, 19, 0⟩).satisfies v = true ↔ Supported v := by
  rw [satisfies, Bool.and_eq_true, Supported, and_iff_left h]
  simp only [untilNextMinor, Version.bumpMinor, isLess_lessOrEqual, isLess_less,
    Version.isSupportedElm, Bool.and_eq_true, decide_eq_true_eq]
  rw [← not_lt, Version.lt_iff, Version.lt_iff]
  dsimp only
  omega

/-- A constraint that allows a supported version is good. -/
theorem goodElm_of_satisfies {c : Constraint} {v : Version} (h : c.satisfies v = true)
    (hv : Supported v) : c.goodElm = true := by
  have hrange := (satisfies_untilNextMinor hv.2).mpr hv
  rw [goodElm]
  split
  · next r hr =>
    have hsat := (satisfies_intersect hr v).mpr ⟨h, hrange⟩
    rw [satisfies, Bool.and_eq_true] at hsat
    obtain ⟨hlo, hhi⟩ := hsat
    rcases lt_or_eq_of_le ((le_of_isLess hlo).trans (le_of_isLess hhi)) with hlt | heq
    · rw [Version.compare_eq, (cmp_eq_lt_iff _ _).mpr hlt]
      rfl
    · -- equal ends: the version is both of them
      have hlower := le_antisymm (le_of_isLess hlo) (heq ▸ le_of_isLess hhi)
      have hupper := heq.symm.trans hlower
      have hloOp : r.lowerOp = .LessOrEqual := by
        cases hop : r.lowerOp with
        | Less =>
          rw [hop, isLess_less] at hlo
          exact absurd hlower hlo.ne
        | LessOrEqual => rfl
      have hhiOp : r.upperOp = .LessOrEqual := by
        cases hop : r.upperOp with
        | Less =>
          rw [hop, isLess_less] at hhi
          exact absurd hupper.symm hhi.ne
        | LessOrEqual => rfl
      simp [hloOp, hhiOp]
  · next hnone => exact (intersect_eq_none hnone v h hrange).elim

end Constraint

import Mathlib

/-! # Sets of small integers, one bit each

    `Data.BitSet`: the members are natural numbers below the capacity, and only the low 32
    bits of a word stand for members.

    * `member_iff`: a member is a number below the capacity whose bit is stored;
    * `stored_insert`, `stored_setWord`: which bits each operation stores. -/

/-- `BitSet`. -/
structure BitSet where
  size : ℕ
  words : List (BitVec 32)
  deriving DecidableEq

namespace BitSet

/-- `wordSize`. -/
def wordSize : ℕ := 32

/-- `fromSize`. -/
def fromSize (nBits : ℕ) : BitSet where
  size := nBits
  words := List.replicate ((nBits + wordSize - 1) / wordSize) 0

/-- `emptyWithSize`. -/
def emptyWithSize (nBits : ℕ) : BitSet where
  size := nBits
  words := []

/-- The word of a bit. -/
def wordIndex (bitIndex : ℕ) : ℕ := bitIndex / wordSize

/-- The place of a bit in its word. -/
def bitOffset (bitIndex : ℕ) : ℕ := bitIndex % wordSize

/-- `member`. -/
def member (bitIndex : ℕ) (set : BitSet) : Bool :=
  if set.size ≤ bitIndex then false
  else
    match set.words[wordIndex bitIndex]? with
    | none => false
    | some word => word >>> bitOffset bitIndex &&& 1 != 0

/-- `ensureWord`: empty words up to one. -/
def ensureWord (wIdx : ℕ) (set : BitSet) : BitSet :=
  let len := set.words.length
  if wIdx < len then set
  else { set with words := set.words ++ List.replicate (wIdx + 1 - len) 0 }

/-- `insert`. -/
def insert (bitIndex : ℕ) (set0 : BitSet) : BitSet :=
  if set0.size ≤ bitIndex then set0
  else
    let wIndex := wordIndex bitIndex
    let mask := (1 : BitVec 32) <<< bitOffset bitIndex
    let set := ensureWord wIndex set0
    let word := set.words[wIndex]?.getD 0
    { set with words := set.words.set wIndex (word ||| mask) }

/-- `setWord`. -/
def setWord (wIndex : ℕ) (newWord : BitVec 32) (set : BitSet) : BitSet :=
  if set.words.length ≤ wIndex then set
  else { set with words := set.words.set wIndex newWord }

/-! ## What is stored -/

/-- The bit that stands for `i`; a missing word reads as clear. -/
def stored (set : BitSet) (i : ℕ) : Bool := (set.words[i / 32]?.getD 0).getLsbD (i % 32)

/-- The low bit of a shifted word. -/
theorem and_one_ne_zero (word : BitVec 32) (off : ℕ) :
    (word >>> off &&& 1 != 0) = word.getLsbD off := by
  rw [Bool.eq_iff_iff, bne_iff_ne]
  constructor
  · intro h
    by_contra hbit
    refine h (BitVec.eq_of_getLsbD_eq fun j hj => ?_)
    rcases j with _ | j
    · simpa using hbit
    · simp [BitVec.getLsbD_one]
  · intro hbit heq
    have := congrArg (fun w : BitVec 32 => w.getLsbD 0) heq
    simp [hbit] at this

/-- A mask has one bit. -/
theorem getLsbD_mask (off : ℕ) {b : ℕ} (hb : b < 32) :
    ((1 : BitVec 32) <<< off).getLsbD b = decide (b = off) := by
  have one : (1 : BitVec 32).getLsbD (b - off) = decide (b - off = 0) := by
    have h := BitVec.getLsbD_one (w := 32) (i := b - off)
    exact h
  rw [BitVec.getLsbD_shiftLeft, one, Bool.eq_iff_iff]
  simp [hb]
  omega

theorem member_iff {set : BitSet} {i : ℕ} :
    member i set = true ↔ i < set.size ∧ set.stored i = true := by
  rw [member, stored]
  split
  · next h => simp [h]
  · next h =>
    have hlt : i < set.size := by omega
    simp only [wordIndex, bitOffset, wordSize, hlt, true_and]
    cases set.words[i / 32]? with
    | none => simp
    | some word => simp only [and_one_ne_zero, Option.getD_some]

theorem stored_ensureWord (wIdx : ℕ) (set : BitSet) (j : ℕ) :
    (ensureWord wIdx set).stored j = set.stored j := by
  rw [ensureWord, stored, stored]
  split
  · rfl
  · congr 1
    simp only [List.getElem?_append, List.getElem?_replicate]
    split
    · rfl
    · next h =>
      rw [List.getElem?_eq_none (by omega)]
      split <;> rfl

theorem length_ensureWord (wIdx : ℕ) (set : BitSet) :
    wIdx < (ensureWord wIdx set).words.length := by
  rw [ensureWord]
  split
  · assumption
  · simp
    omega

@[simp] theorem ensureWord_size (wIdx : ℕ) (set : BitSet) :
    (ensureWord wIdx set).size = set.size := by
  rw [ensureWord]
  split <;> rfl

@[simp] theorem insert_size (i : ℕ) (set : BitSet) : (set.insert i).size = set.size := by
  rw [insert]
  split
  · rfl
  · exact ensureWord_size ..

/-- A word that is replaced decides the bits of its 32 numbers. -/
theorem stored_set (set : BitSet) {w : ℕ} (hw : w < set.words.length) (word : BitVec 32)
    (j : ℕ) : stored { set with words := set.words.set w word } j
      = if j / 32 = w then word.getLsbD (j % 32) else set.stored j := by
  rw [stored, stored, List.getElem?_set]
  by_cases h : w = j / 32
  · rw [if_pos h, if_pos h.symm, if_pos hw]
    rfl
  · rw [if_neg h, if_neg (Ne.symm h)]

/-- An insertion below the capacity stores its own bit. -/
theorem stored_insert {set : BitSet} {i : ℕ} (h : i < set.size) (j : ℕ) :
    (set.insert i).stored j = (decide (j = i) || set.stored j) := by
  rw [insert, if_neg (by omega)]
  simp only [wordIndex, bitOffset, wordSize]
  rw [stored_set _ (length_ensureWord _ _)]
  split
  · next hword =>
    have hword' : ((ensureWord (i / 32) set).words[i / 32]?.getD 0).getLsbD (j % 32)
        = set.stored j := by
      rw [← stored_ensureWord (i / 32) set j, stored, hword]
    have hmod : j % 32 < 32 := Nat.mod_lt _ (by decide)
    rw [BitVec.getLsbD_or, hword', Bool.or_comm]
    congr 1
    rw [getLsbD_mask _ hmod, Bool.eq_iff_iff, decide_eq_true_eq, decide_eq_true_eq]
    omega
  · next hword =>
    have hne : j ≠ i := fun heq => hword (by rw [heq])
    rw [stored_ensureWord, decide_eq_false hne, Bool.false_or]

theorem member_insert {set : BitSet} {i : ℕ} (h : i < set.size) (j : ℕ) :
    member j (set.insert i) = true ↔ j = i ∨ member j set = true := by
  rw [member_iff, member_iff, insert_size, stored_insert h, Bool.or_eq_true, decide_eq_true_eq]
  constructor
  · rintro ⟨hlt, rfl | hj⟩
    · exact Or.inl rfl
    · exact Or.inr ⟨hlt, hj⟩
  · rintro (rfl | ⟨hlt, hj⟩)
    · exact ⟨h, Or.inl rfl⟩
    · exact ⟨hlt, Or.inr hj⟩

@[simp] theorem setWord_size (w : ℕ) (word : BitVec 32) (set : BitSet) :
    (set.setWord w word).size = set.size := by
  rw [setWord]
  split <;> rfl

@[simp] theorem setWord_length (w : ℕ) (word : BitVec 32) (set : BitSet) :
    (set.setWord w word).words.length = set.words.length := by
  rw [setWord]
  split
  · rfl
  · exact List.length_set

theorem stored_setWord {set : BitSet} {w : ℕ} (hw : w < set.words.length) (word : BitVec 32)
    (j : ℕ) : (set.setWord w word).stored j
      = if j / 32 = w then word.getLsbD (j % 32) else set.stored j := by
  rw [setWord, if_neg (by omega)]
  exact stored_set set hw word j

theorem stored_fromSize (n j : ℕ) : (fromSize n).stored j = false := by
  rw [stored, fromSize, List.getElem?_replicate]
  split <;> simp

theorem member_emptyWithSize (n j : ℕ) : member j (emptyWithSize n) = false := by
  rw [member]
  split <;> rfl

end BitSet

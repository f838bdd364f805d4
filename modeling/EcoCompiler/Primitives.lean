import Mathlib

/-! # The parser library

    `Compiler.Lexer.Primitives`: a String is the list of its UTF-16 units, a character is its
    code point, and a parser goes from a state to an outcome.

    * `unsafeIndex`, `codePointAt` — the character at an index;
    * `PStep`, `andThen`, `word1`, … — outcomes and combinators;
    * `andThen_gives`, `word1_reads` — what a combinator gives, and what a parser reads. -/

namespace Primitives

/-- A String: its UTF-16 units. -/
abbrev Text := List UInt16

/-- The units of a text of ASCII characters. -/
def ascii (s : String) : Text := s.toList.map fun c => UInt16.ofNat c.toNat

/-- A high surrogate. -/
def IsHigh (code : ℕ) : Prop := 0xD800 ≤ code ∧ code ≤ 0xDBFF

/-- A low surrogate. -/
def IsLow (code : ℕ) : Prop := 0xDC00 ≤ code ∧ code ≤ 0xDFFF

instance (code : ℕ) : Decidable (IsHigh code) := inferInstanceAs (Decidable (_ ∧ _))

instance (code : ℕ) : Decidable (IsLow code) := inferInstanceAs (Decidable (_ ∧ _))

/-- The code point of a surrogate pair. -/
def joined (high low : ℕ) : ℕ := 0x10000 + (high - 0xD800) * 0x400 + (low - 0xDC00)

/-- `String.uncons`: a surrogate pair is one character. -/
def uncons : Text → Option (ℕ × Text)
  | [] => none
  | [u] => some (u.toNat, [])
  | u :: v :: rest =>
    if IsHigh u.toNat ∧ IsLow v.toNat then some (joined u.toNat v.toNat, rest)
    else some (u.toNat, v :: rest)

/-- The character at an index; it is asked for before the end only, so the crash at the end is
    left out. -/
def unsafeIndex (str : Text) (index : ℕ) : ℕ :=
  match uncons (str.drop index) with
  | some (char, _) => char
  | none => 0

/-- `codePointAt`: the character at a position, and its width. -/
def codePointAt (src : Text) (pos end_ code : ℕ) : ℕ × ℕ :=
  if 0xFFFF < code then
    if pos + 1 < end_ then (code, 2) else (0xD800 + (code - 0x10000) / 0x400, 1)
  else if IsHigh code ∧ pos + 1 < end_ then
    let low := unsafeIndex src (pos + 1)
    if IsLow low then (joined code low, 2) else (code, 1)
  else (code, 1)

/-- `StateData`. -/
structure State where
  src : Text
  pos : ℕ
  end_ : ℕ
  indent : ℕ
  row : ℕ
  col : ℕ

/-- The outcome of a parser; a failure has its error as a function of a row and a column. -/
inductive PStep (x a : Type) where
  | cok (value : a) (s : State)
  | eok (value : a) (s : State)
  | cerr (row col : ℕ) (toError : ℕ → ℕ → x)
  | eerr (row col : ℕ) (toError : ℕ → ℕ → x)

/-- `Parser`. -/
def Parser (x a : Type) : Type := State → PStep x a

section

variable {x y a b : Type}

/-- `map`. -/
def map (f : a → b) (parser : Parser x a) : Parser x b := fun state =>
  match parser state with
  | .cok a s => .cok (f a) s
  | .eok a s => .eok (f a) s
  | .cerr r c t => .cerr r c t
  | .eerr r c t => .eerr r c t

/-- `oneOfHelp`. -/
def oneOfHelp (state : State) (toError : ℕ → ℕ → x) : List (Parser x a) → PStep x a
  | [] => .eerr state.row state.col toError
  | parser :: remainingParsers =>
    match parser state with
    | .eerr _ _ _ => oneOfHelp state toError remainingParsers
    | result => result

/-- `oneOf`: the first parser that consumes or succeeds. -/
def oneOf (toError : ℕ → ℕ → x) (parsers : List (Parser x a)) : Parser x a := fun state =>
  oneOfHelp state toError parsers

/-- `oowfHelp`. -/
def oowfHelp (state : State) : List (Parser x a) → a → PStep x a
  | [], fallback => .eok fallback state
  | parser :: remainingParsers, fallback =>
    match parser state with
    | .eerr _ _ _ => oowfHelp state remainingParsers fallback
    | result => result

/-- `oneOfWithFallback`. -/
def oneOfWithFallback (parsers : List (Parser x a)) (fallback : a) : Parser x a := fun state =>
  oowfHelp state parsers fallback

/-- `pure`. -/
def pure (value : a) : Parser x a := fun state => .eok value state

/-- `andThen`. -/
def andThen (callback : a → Parser x b) (parserA : Parser x a) : Parser x b := fun state =>
  match parserA state with
  | .cok a s =>
    match callback a s with
    | .cok a_ s_ => .cok a_ s_
    | .eok a_ s_ => .cok a_ s_
    | .cerr r c t => .cerr r c t
    | .eerr r c t => .cerr r c t
  | .eok a s => callback a s
  | .cerr r c t => .cerr r c t
  | .eerr r c t => .eerr r c t

/-- `specialize`: errors of the parser with where it started. -/
def specialize (addContext : x → ℕ → ℕ → y) (parser : Parser x a) : Parser y a := fun st =>
  match parser st with
  | .cok a s => .cok a s
  | .eok a s => .eok a s
  | .cerr r c tx => .cerr st.row st.col (addContext (tx r c))
  | .eerr r c tx => .eerr st.row st.col (addContext (tx r c))

/-- `word1`: one given character. -/
def word1 (word : Char) (toError : ℕ → ℕ → x) : Parser x Unit := fun st =>
  if st.pos < st.end_ ∧ unsafeIndex st.src st.pos = word.toNat then
    .cok () { st with pos := st.pos + 1, col := st.col + 1 }
  else .eerr st.row st.col toError

/-- `Step`. -/
inductive Step (σ a : Type) where
  | loop (state : σ)
  | done (value : a)

/-- `loopHelp`, for a number of rounds; `spent` is the outcome when they are used up. -/
def loopHelp {σ : Type} (spent : PStep x a) (callback : σ → Parser x (Step σ a)) :
    ℕ → State → σ → (a → State → PStep x a) → (ℕ → ℕ → (ℕ → ℕ → x) → PStep x a) → PStep x a
  | 0, _, _, _, _ => spent
  | rounds + 1, state, loopState, eok, eerr =>
    match callback loopState state with
    | .cok (.loop newLoopState) newState =>
      loopHelp spent callback rounds newState newLoopState .cok .cerr
    | .cok (.done a) newState => .cok a newState
    | .eok (.loop newLoopState) newState =>
      loopHelp spent callback rounds newState newLoopState eok eerr
    | .eok (.done a) newState => eok a newState
    | .cerr r c t => .cerr r c t
    | .eerr r c t => eerr r c t

/-- `Position`. -/
structure Position where
  row : ℕ
  col : ℕ
  deriving DecidableEq

/-- `Region`. -/
structure Region where
  start : Position
  end_ : Position
  deriving DecidableEq

/-- `Located`. -/
structure Located (a : Type) where
  region : Region
  value : a

/-- `addLocation`. -/
def addLocation (parser : Parser x a) : Parser x (Located a) := fun startS =>
  match parser startS with
  | .cok a s => .cok ⟨⟨⟨startS.row, startS.col⟩, ⟨s.row, s.col⟩⟩, a⟩ s
  | .eok a s => .eok ⟨⟨⟨startS.row, startS.col⟩, ⟨s.row, s.col⟩⟩, a⟩ s
  | .cerr r c t => .cerr r c t
  | .eerr r c t => .eerr r c t

/-- The state at the start of a text. -/
def initialState (src : Text) : State := ⟨src, 0, src.length, 0, 1, 1⟩

/-- `toOk`. -/
def toOk (toBadEnd : ℕ → ℕ → x) (value : a) (s : State) : Except x a :=
  if s.pos = s.end_ then .ok value else .error (toBadEnd s.row s.col)

/-- `fromByteString`: the parser has to read everything. -/
def fromByteString (parser : Parser x a) (toBadEnd : ℕ → ℕ → x) (src : Text) : Except x a :=
  match parser (initialState src) with
  | .cok a state => toOk toBadEnd a state
  | .eok a state => toOk toBadEnd a state
  | .cerr row col toError => .error (toError row col)
  | .eerr row col toError => .error (toError row col)

/-! ## What a parser gives -/

/-- The outcome is a success, with or without anything consumed. -/
def PStep.Gives (r : PStep x a) (value : a) (s : State) : Prop :=
  r = .cok value s ∨ r = .eok value s

/-- What a mapped parser gives comes from the parser. -/
theorem map_gives {f : a → b} {p : Parser x a} {s s' : State} {v : b}
    (h : (map f p s).Gives v s') : ∃ u, (p s).Gives u s' ∧ v = f u := by
  rw [map] at h
  cases hp : p s with
  | cok u t =>
    rw [hp] at h
    rcases h with h | h
    · obtain ⟨rfl, rfl⟩ := PStep.cok.inj h
      exact ⟨u, Or.inl rfl, rfl⟩
    · cases h
  | eok u t =>
    rw [hp] at h
    rcases h with h | h
    · cases h
    · obtain ⟨rfl, rfl⟩ := PStep.eok.inj h
      exact ⟨u, Or.inr rfl, rfl⟩
  | cerr r c t =>
    rw [hp] at h
    rcases h with h | h <;> cases h
  | eerr r c t =>
    rw [hp] at h
    rcases h with h | h <;> cases h

/-- Two parsers in sequence give what the second gives after the first. -/
theorem andThen_gives {f : a → Parser x b} {p : Parser x a} {s s' : State} {v : b}
    (h : (andThen f p s).Gives v s') : ∃ u t, (p s).Gives u t ∧ (f u t).Gives v s' := by
  rw [andThen] at h
  cases hp : p s with
  | cok u t =>
    refine ⟨u, t, Or.inl rfl, ?_⟩
    rw [hp] at h
    dsimp only at h
    cases hf : f u t with
    | cok v' t' =>
      rw [hf] at h
      exact h
    | eok v' t' =>
      rw [hf] at h
      rcases h with h | h
      · obtain ⟨rfl, rfl⟩ := PStep.cok.inj h
        exact Or.inr rfl
      · cases h
    | cerr r c e =>
      rw [hf] at h
      rcases h with h | h <;> cases h
    | eerr r c e =>
      rw [hf] at h
      rcases h with h | h <;> cases h
  | eok u t =>
    rw [hp] at h
    exact ⟨u, t, Or.inr rfl, h⟩
  | cerr r c t =>
    rw [hp] at h
    rcases h with h | h <;> cases h
  | eerr r c t =>
    rw [hp] at h
    rcases h with h | h <;> cases h

theorem specialize_gives {f : x → ℕ → ℕ → y} {p : Parser x a} {s s' : State} {v : a}
    (h : (specialize f p s).Gives v s') : (p s).Gives v s' := by
  rw [specialize] at h
  cases hp : p s with
  | cok u t =>
    rw [hp] at h
    rcases h with h | h
    · obtain ⟨rfl, rfl⟩ := PStep.cok.inj h
      exact Or.inl rfl
    · cases h
  | eok u t =>
    rw [hp] at h
    rcases h with h | h
    · cases h
    · obtain ⟨rfl, rfl⟩ := PStep.eok.inj h
      exact Or.inr rfl
  | cerr r c t =>
    rw [hp] at h
    rcases h with h | h <;> cases h
  | eerr r c t =>
    rw [hp] at h
    rcases h with h | h <;> cases h

/-- A whole text is read by a parser that gives a value at its end. -/
theorem fromByteString_ok {p : Parser x a} {toBadEnd : ℕ → ℕ → x} {src : Text} {v : a} :
    fromByteString p toBadEnd src = .ok v ↔
      ∃ s, (p (initialState src)).Gives v s ∧ s.pos = s.end_ := by
  have hok : ∀ (w : a) (s : State), toOk toBadEnd w s = .ok v ↔ w = v ∧ s.pos = s.end_ := by
    intro w s
    rw [toOk]
    split_ifs with hend
    · simp [hend]
    · simp [hend]
  rw [fromByteString]
  cases hp : p (initialState src) with
  | cok w s =>
    dsimp only
    rw [hok]
    constructor
    · rintro ⟨rfl, hend⟩
      exact ⟨s, Or.inl rfl, hend⟩
    · rintro ⟨s', h | h, hend⟩
      · obtain ⟨rfl, rfl⟩ := PStep.cok.inj h
        exact ⟨rfl, hend⟩
      · cases h
  | eok w s =>
    dsimp only
    rw [hok]
    constructor
    · rintro ⟨rfl, hend⟩
      exact ⟨s, Or.inr rfl, hend⟩
    · rintro ⟨s', h | h, hend⟩
      · cases h
      · obtain ⟨rfl, rfl⟩ := PStep.eok.inj h
        exact ⟨rfl, hend⟩
  | cerr row col e =>
    refine iff_of_false (by simp) ?_
    rintro ⟨s', h | h, -⟩ <;> cases h
  | eerr row col e =>
    refine iff_of_false (by simp) ?_
    rintro ⟨s', h | h, -⟩ <;> cases h

/-- A step gives one value and one state. -/
theorem gives_inj {r : PStep x a} {s s' : State} {v v' : a} (h : r.Gives v s) (h' : r.Gives v' s') :
    v = v' ∧ s = s' := by
  rcases h with rfl | rfl
  · rcases h' with h' | h'
    · exact PStep.cok.inj h'
    · cases h'
  · rcases h' with h' | h'
    · cases h'
    · exact PStep.eok.inj h'

theorem not_gives_eerr {row col : ℕ} {e : ℕ → ℕ → x} {s : State} {v : a} :
    ¬ (PStep.eerr row col e : PStep x a).Gives v s := by
  rintro (h | h) <;> cases h

theorem not_gives_cerr {row col : ℕ} {e : ℕ → ℕ → x} {s : State} {v : a} :
    ¬ (PStep.cerr row col e : PStep x a).Gives v s := by
  rintro (h | h) <;> cases h

section

variable {σ : Type} {spent : PStep x a} {callback : σ → Parser x (Step σ a)}
  {eok : a → State → PStep x a} {eerr : ℕ → ℕ → (ℕ → ℕ → x) → PStep x a}

/-- The rule of the loop: what holds of a last round, and of a round before it when it holds of the
    rest of the loop, holds of what the loop gives. -/
theorem loopHelp_gives {P : State → σ → a → State → Prop} (hspent : ∀ v s, ¬ spent.Gives v s)
    (hdone : ∀ s l v s', (callback l s).Gives (.done v) s' → P s l v s')
    (hloop : ∀ s l l' t v s', (callback l s).Gives (.loop l') t → P t l' v s' → P s l v s')
    (heok : ∀ v s v' s', (eok v s).Gives v' s' → v' = v ∧ s' = s)
    (heerr : ∀ row col e v s, ¬ (eerr row col e).Gives v s) {n : ℕ} {s s' : State} {l : σ} {v : a}
    (h : (loopHelp spent callback n s l eok eerr).Gives v s') : P s l v s' := by
  induction n generalizing s l eok eerr with
  | zero => exact absurd h (hspent v s')
  | succ n ih =>
    have hcok : ∀ (v : a) (s : State) (v' : a) (s' : State),
        (PStep.cok v s : PStep x a).Gives v' s' → v' = v ∧ s' = s := by
      intro v s v' s' hg
      obtain ⟨rfl, rfl⟩ := gives_inj hg (Or.inl rfl)
      exact ⟨rfl, rfl⟩
    rw [loopHelp] at h
    cases hstep : callback l s with
    | cok step t =>
      rw [hstep] at h
      cases step with
      | done w =>
        obtain ⟨rfl, rfl⟩ := hcok w t v s' h
        exact hdone s l v s' (Or.inl hstep)
      | loop l' =>
        exact hloop s l l' t v s' (Or.inl hstep)
          (ih hcok (fun row col e v s => not_gives_cerr) h)
    | eok step t =>
      rw [hstep] at h
      cases step with
      | done w =>
        obtain ⟨rfl, rfl⟩ := heok w t v s' h
        exact hdone s l v s' (Or.inr hstep)
      | loop l' => exact hloop s l l' t v s' (Or.inr hstep) (ih heok heerr h)
    | cerr row col e =>
      rw [hstep] at h
      exact absurd h not_gives_cerr
    | eerr row col e =>
      rw [hstep] at h
      exact absurd h (heerr row col e v s')

/-- A last round ends the loop. -/
theorem gives_loopHelp_done (heok : ∀ v s, (eok v s).Gives v s) {n : ℕ} {s t : State} {l : σ}
    {v : a}
    (hround : (callback l s).Gives (.done v) t) :
    (loopHelp spent callback (n + 1) s l eok eerr).Gives v t := by
  rw [loopHelp]
  rcases hround with heq | heq
  · rw [heq]
    exact Or.inl rfl
  · rw [heq]
    exact heok v t

/-- A round before the last goes on with the loop. -/
theorem gives_loopHelp_loop (heok : ∀ v s, (eok v s).Gives v s) {n : ℕ} {s t s' : State} {l l' : σ}
    {v : a} (hround : (callback l s).Gives (.loop l') t)
    (hrest : ∀ (eok : a → State → PStep x a) (eerr : ℕ → ℕ → (ℕ → ℕ → x) → PStep x a),
      (∀ v s, (eok v s).Gives v s) → (loopHelp spent callback n t l' eok eerr).Gives v s') :
    (loopHelp spent callback (n + 1) s l eok eerr).Gives v s' := by
  rw [loopHelp]
  rcases hround with heq | heq
  · rw [heq]
    exact hrest _ _ fun v s => Or.inl rfl
  · rw [heq]
    exact hrest _ _ heok

end

/-! ## What a parser reads -/

/-- What is left to read. -/
def State.rest (s : State) : Text := (s.src.drop s.pos).take (s.end_ - s.pos)

/-- The state some units later, on the same line. -/
def State.advance (s : State) (n : ℕ) : State := { s with pos := s.pos + n, col := s.col + n }

theorem State.advance_advance (s : State) (m n : ℕ) :
    (s.advance m).advance n = s.advance (m + n) := by
  simp [State.advance, Nat.add_assoc]

/-- Past the first part of the text the rest is left. -/
theorem State.rest_advance {s : State} {l t : Text} (h : s.rest = l ++ t) :
    (s.advance l.length).rest = t := by
  have hdrop : (s.advance l.length).rest = s.rest.drop l.length := by
    rw [State.rest, State.rest, List.drop_take, List.drop_drop]
    show ((s.src.drop (s.pos + l.length)).take (s.end_ - (s.pos + l.length))) = _
    rw [Nat.sub_sub]
  rw [hdrop, h, List.drop_left]

theorem State.pos_lt_of_rest {s : State} {u : UInt16} {t : Text} (h : s.rest = u :: t) :
    s.pos < s.end_ := by
  by_contra hle
  rw [State.rest, Nat.sub_eq_zero_of_le (by omega), List.take_zero] at h
  cases h

theorem State.not_pos_lt_of_rest {s : State} (inside : s.end_ ≤ s.src.length) (h : s.rest = []) :
    ¬ s.pos < s.end_ := by
  intro hlt
  have hlen := congrArg List.length h
  rw [State.rest, List.length_take, List.length_drop, List.length_nil] at hlen
  omega

/-- A unit that is no high surrogate is the character there. -/
theorem unsafeIndex_of_rest {s : State} {u : UInt16} {t : Text} (h : s.rest = u :: t)
    (hu : ¬ IsHigh u.toNat) : unsafeIndex s.src s.pos = u.toNat := by
  have hdrop : ∃ t', s.src.drop s.pos = u :: t' := by
    cases hd : s.src.drop s.pos with
    | nil =>
      rw [State.rest, hd, List.take_nil] at h
      cases h
    | cons u' t' =>
      rw [State.rest, hd] at h
      cases hk : s.end_ - s.pos with
      | zero =>
        rw [hk, List.take_zero] at h
        cases h
      | succ k =>
        rw [hk, List.take_succ_cons] at h
        exact ⟨t', by rw [(List.cons.inj h).1]⟩
  obtain ⟨t', hd⟩ := hdrop
  rw [unsafeIndex, hd]
  cases t' with
  | nil => rfl
  | cons v t'' => rw [uncons, if_neg fun hhigh => hu hhigh.1]

/-- Two parsers that give what they should, in sequence. -/
theorem gives_andThen {f : a → Parser x b} {p : Parser x a} {s t t' : State} {u : a} {v : b}
    (hp : (p s).Gives u t) (hf : (f u t).Gives v t') : (andThen f p s).Gives v t' := by
  rw [andThen]
  rcases hp with hp | hp
  · rw [hp]
    rcases hf with hf | hf <;> simp only [hf] <;> exact Or.inl rfl
  · rw [hp]
    exact hf

/-- Mapping changes what is given and not what is read. -/
theorem gives_map {f : a → b} {p : Parser x a} {s t : State} {u : a} (hp : (p s).Gives u t) :
    (map f p s).Gives (f u) t := by
  rw [map]
  rcases hp with hp | hp
  · rw [hp]
    exact Or.inl rfl
  · rw [hp]
    exact Or.inr rfl

theorem gives_specialize {f : x → ℕ → ℕ → y} {p : Parser x a} {s t : State} {u : a}
    (hp : (p s).Gives u t) : (specialize f p s).Gives u t := by
  rw [specialize]
  rcases hp with hp | hp
  · rw [hp]
    exact Or.inl rfl
  · rw [hp]
    exact Or.inr rfl

/-- Where the text goes on with `l`, and with what `follow` allows after it, the parser reads
    `l` and gives `v`. -/
def Reads (p : Parser x a) (l : Text) (v : a) (follow : Text → Prop) : Prop :=
  ∀ (s : State) (t : Text), s.end_ ≤ s.src.length → s.rest = l ++ t → follow t →
    (p s).Gives v (s.advance l.length)

/-- Two parsers one after the other read both texts. -/
theorem Reads.andThen {f : a → Parser x b} {p : Parser x a} {l m : Text} {u : a} {v : b}
    {follow follow' : Text → Prop} (hp : Reads p l u follow) (hf : Reads (f u) m v follow')
    (h : ∀ t, follow' t → follow (m ++ t)) : Reads (Primitives.andThen f p) (l ++ m) v follow' := by
  intro s t inside hrest ht
  rw [List.append_assoc] at hrest
  have hfirst := hp s (m ++ t) inside hrest (h t ht)
  have hsecond := hf (s.advance l.length) t inside (State.rest_advance hrest) ht
  rw [State.advance_advance, ← List.length_append] at hsecond
  exact gives_andThen hfirst hsecond

/-- A mapped parser reads the same text. -/
theorem Reads.map {f : a → b} {p : Parser x a} {l : Text} {u : a} {follow : Text → Prop}
    (hp : Reads p l u follow) : Reads (Primitives.map f p) l (f u) follow :=
  fun s t inside hrest ht => gives_map (hp s t inside hrest ht)

theorem Reads.specialize {f : x → ℕ → ℕ → y} {p : Parser x a} {l : Text} {u : a}
    {follow : Text → Prop} (hp : Reads p l u follow) :
    Reads (Primitives.specialize f p) l u follow :=
  fun s t inside hrest ht => gives_specialize (hp s t inside hrest ht)

/-- A one character word reads that character. -/
theorem word1_reads {word : Char} {u : UInt16} (toError : ℕ → ℕ → x)
    (hu : u.toNat = word.toNat) (hword : word.toNat < 0xD800) :
    Reads (word1 word toError) [u] () fun _ => True := by
  intro s t inside h _
  have hhigh : ¬ IsHigh u.toNat := fun hh => by
    have hle := hh.1
    omega
  refine Or.inl ?_
  rw [word1, if_pos ⟨State.pos_lt_of_rest h, (unsafeIndex_of_rest h hhigh).trans hu⟩]
  rfl

/-- A parser does not read another character than its own. -/
theorem word1_fails {word : Char} (toError : ℕ → ℕ → x) {s : State} (inside : s.end_ ≤ s.src.length)
    (h : ∀ u t, s.rest = u :: t → ¬ IsHigh u.toNat ∧ u.toNat ≠ word.toNat) :
    word1 word toError s = .eerr s.row s.col toError := by
  rw [word1, if_neg]
  rintro ⟨hlt, heq⟩
  cases hrest : s.rest with
  | nil => exact State.not_pos_lt_of_rest inside hrest hlt
  | cons u t =>
    obtain ⟨hhigh, hne⟩ := h u t hrest
    rw [unsafeIndex_of_rest hrest hhigh] at heq
    exact hne heq

end

end Primitives

import EcoCompiler.JsonProofs

/-! # The parser of JSON without depths and rounds

    * `Consumes`, `Agree` — how much a parser reads, and parsers that agree on short texts;
    * `valueTo_agree` — a greater depth changes nothing;
    * `pValue_eq`, `pElements_eq`, `pEntries_eq` — the recursion of the source. -/

namespace Json

open Primitives ParseString ParseSpace JsonGrammar

section

variable {x a b : Type} {s s' : State} {d e n : ℕ}

/-! ## Parsers that agree on short texts -/

/-- What a parser gives is `d` units further on at least. -/
def Consumes (d : ℕ) (p : Parser x a) : Prop :=
  ∀ s s' v, Inside s → (p s).Gives v s' → Within s s' ∧ s'.rest.length + d ≤ s.rest.length

/-- The parsers agree where less than `n` units are left. -/
def Agree (n : ℕ) (p q : Parser x a) : Prop := ∀ s, Inside s → s.rest.length < n → p s = q s

theorem Agree.refl (n : ℕ) (p : Parser x a) : Agree n p p := fun _ _ _ => rfl

/-- Parsers that agree on longer texts agree on shorter ones. -/
theorem Agree.mono {m : ℕ} {p q : Parser x a} (h : Agree n p q) (hle : m ≤ n) : Agree m p q :=
  fun s hs hlt => h s hs (hlt.trans_le hle)

/-- A parser that takes so much takes less. -/
theorem Consumes.mono {p : Parser x a} (h : Consumes d p) (hle : e ≤ d) : Consumes e p := by
  intro s s' v hs hg
  obtain ⟨hw, hlen⟩ := h s s' v hs hg
  exact ⟨hw, by omega⟩

/-- Two parsers one after the other take what both take. -/
theorem Consumes.andThen {p : Parser x a} {f : a → Parser x b} (hp : Consumes d p)
    (hf : ∀ u, Consumes e (f u)) : Consumes (d + e) (Primitives.andThen f p) := by
  intro s s' v hs hg
  obtain ⟨u, t, hg₁, hg₂⟩ := andThen_gives hg
  obtain ⟨hw₁, hlen₁⟩ := hp s t u hs hg₁
  obtain ⟨hw₂, hlen₂⟩ := hf u t s' v (hw₁.inside hs) hg₂
  exact ⟨hw₁.trans hw₂, by omega⟩

theorem Consumes.map {p : Parser x a} {f : a → b} (hp : Consumes d p) :
    Consumes d (Primitives.map f p) := by
  intro s s' v hs hg
  obtain ⟨u, hg, -⟩ := map_gives hg
  exact hp s s' u hs hg

/-- A choice takes what every alternative takes at least. -/
theorem Consumes.oneOf {toError : ℕ → ℕ → x} {ps : List (Parser x a)} (h : ∀ p ∈ ps, Consumes d p) :
    Consumes d (Primitives.oneOf toError ps) := by
  intro s s' v hs hg
  obtain ⟨p, hp, hg⟩ := oneOf_gives hg
  exact h p hp s s' v hs hg

/-- The second parser has less left by what the first consumes. -/
theorem Agree.andThen {p q : Parser x a} {f g : a → Parser x b} (hp : Agree n p q)
    (hd : Consumes d p) (hf : ∀ u, Agree (n - d) (f u) (g u)) :
    Agree n (Primitives.andThen f p) (Primitives.andThen g q) := by
  intro s hs hlt
  have hnext : ∀ u t, (p s).Gives u t → f u t = g u t := by
    intro u t hg
    obtain ⟨hw, hlen⟩ := hd s t u hs hg
    exact hf u t (hw.inside hs) (by omega)
  rw [Primitives.andThen, Primitives.andThen, ← hp s hs hlt]
  cases heq : p s with
  | cok u t =>
    dsimp only
    rw [hnext u t (Or.inl heq)]
  | eok u t =>
    dsimp only
    exact hnext u t (Or.inr heq)
  | cerr row col t => rfl
  | eerr row col t => rfl

/-- Mapping keeps the agreement. -/
theorem Agree.map {p q : Parser x a} {f : a → b} (hp : Agree n p q) :
    Agree n (Primitives.map f p) (Primitives.map f q) := by
  intro s hs hlt
  rw [Primitives.map, Primitives.map, hp s hs hlt]

theorem Agree.addLocation {p q : Parser x a} (hp : Agree n p q) :
    Agree n (Primitives.addLocation p) (Primitives.addLocation q) := by
  intro s hs hlt
  rw [Primitives.addLocation, Primitives.addLocation, hp s hs hlt]

/-- Choices agree when their alternatives do. -/
theorem Agree.oneOf {toError : ℕ → ℕ → x} {ps qs : List (Parser x a)}
    (h : List.Forall₂ (Agree n) ps qs) :
    Agree n (Primitives.oneOf toError ps) (Primitives.oneOf toError qs) := by
  intro s hs hlt
  induction h with
  | nil => rfl
  | cons hp _ ih =>
    rw [Primitives.oneOf, Primitives.oneOf, oneOfHelp, oneOfHelp, hp s hs hlt]
    rw [Primitives.oneOf, Primitives.oneOf] at ih
    rw [ih]

/-- Rounds that each consume something are not used up. -/
theorem loopHelp_agree {σ : Type} {spent spent' : PStep x a}
    {callback callback' : σ → Parser x (Step σ a)}
    (h : ∀ l, Agree n (callback l) (callback' l)) (hd : ∀ l, Consumes 1 (callback l)) {m m' : ℕ}
    {l : σ} {eok : a → State → PStep x a} {eerr : ℕ → ℕ → (ℕ → ℕ → x) → PStep x a} (hs : Inside s)
    (hn : s.rest.length < n) (hm : s.rest.length < m) (hm' : s.rest.length < m') :
    loopHelp spent callback m s l eok eerr = loopHelp spent' callback' m' s l eok eerr := by
  induction m generalizing m' s l eok eerr with
  | zero => exact absurd hm (Nat.not_lt_zero _)
  | succ m ih =>
    cases m' with
    | zero => exact absurd hm' (Nat.not_lt_zero _)
    | succ m' =>
      have hround : ∀ l' t eok eerr, (callback l s).Gives (.loop l') t →
          loopHelp spent callback m t l' eok eerr = loopHelp spent' callback' m' t l' eok eerr := by
        intro l' t eok eerr hg
        obtain ⟨hw, hlen⟩ := hd l s t _ hs hg
        exact ih (hw.inside hs) (by omega) (by omega) (by omega)
      rw [loopHelp, loopHelp, ← h l s hs hn]
      cases heq : callback l s with
      | cok step t =>
        cases step with
        | done v => rfl
        | loop l' => exact hround l' t _ _ (Or.inl heq)
      | eok step t =>
        cases step with
        | done v => rfl
        | loop l' => exact hround l' t _ _ (Or.inr heq)
      | cerr row col t => rfl
      | eerr row col t => rfl

/-! ## What the tokens consume -/

/-- A one character word takes one unit. -/
theorem consumes_word1 (word : Char) {c : UInt16} (toError : ℕ → ℕ → x) (hc : c.toNat < 0xD800)
    (hword : c.toNat = word.toNat) : Consumes 1 (word1 word toError) := by
  intro s s' v hs hg
  obtain ⟨hw, hrest⟩ := word1_gives hs hc hword hg
  exact ⟨hw, by rw [hrest, List.length_cons]⟩

theorem consumes_spaces : Consumes 0 spaces := by
  intro s s' v hs hg
  obtain ⟨hw, hws, -⟩ := spaces_gives hs hg
  exact ⟨hw, hws.length_le⟩

/-- A String takes at least its quote. -/
theorem consumes_pString (toError : ℕ → ℕ → ParseError) : Consumes 1 (pString toError) := by
  intro s s' v hs hg
  obtain ⟨hw, t, hquote, hbody⟩ := pString_gives hs hg
  have hlen := hbody.length_eq
  exact ⟨hw, by rw [hquote, List.length_cons]; omega⟩

end

section

variable {host : Host} {isAlpha : ℕ → Bool} {s : State} {pv qv : Parser ParseError AST} {n : ℕ}

/-- A value takes at least one unit. -/
theorem Gives.consumes (h : Gives host pv) : Consumes 1 pv := by
  intro s s' v hs hg
  obtain ⟨hw, t, hvalue, -⟩ := h s s' v hs hg
  exact ⟨hw, value_length hvalue⟩

/-- A mark with the spaces after it. -/
theorem consumes_mark (word : Char) {c : UInt16} (toError : ℕ → ℕ → ParseError)
    (hc : c.toNat < 0xD800) (hword : c.toNat = word.toNat) :
    Consumes 1 (andThen (fun _ => spaces) (word1 word toError)) :=
  (consumes_word1 word toError hc hword).andThen fun _ => consumes_spaces

/-! ## What contains values -/

theorem consumes_colon : Consumes 0 (andThen (fun _ => spaces)
    (andThen (fun _ => word1 ':' ParseError.ObjectColon) spaces)) := by
  have hmark := consumes_spaces.andThen fun _ : Unit =>
    consumes_word1 ':' (c := 0x3A) ParseError.ObjectColon (by decide) (by decide)
  exact (hmark.andThen fun _ => consumes_spaces).mono (by omega)

/-- A member takes at least one unit. -/
theorem pField_consumes (hpv : Consumes 1 pv) : Consumes 1 (pField pv) := by
  have hvalue : ∀ key : Snippet, Consumes 1 (map (fun value => (key, value))
      (andThen (fun _ => pv) (andThen (fun _ => spaces)
        (andThen (fun _ => word1 ':' ParseError.ObjectColon) spaces)))) :=
    fun key => ((consumes_colon.andThen fun _ => hpv).mono (by omega)).map
  exact ((consumes_pString _).andThen hvalue).mono (by omega)

/-- Members agree when the readers of their values do. -/
theorem pField_agree (h : Agree n pv qv) : Agree n (pField pv) (pField qv) := by
  refine (Agree.refl n _).andThen (consumes_pString _) fun key => Agree.map ?_
  exact (Agree.refl _ _).andThen consumes_colon fun _ => h.mono (by omega)

theorem pObjectHelp_consumes (hpv : Consumes 1 pv) (l : List (Snippet × AST)) :
    Consumes 1 (pObjectHelp pv l) := by
  refine Consumes.oneOf fun p hp => ?_
  rcases List.mem_cons.mp hp with rfl | hp
  · have hcomma := consumes_mark ',' (c := 0x2C) ParseError.ObjectEnd (by decide) (by decide)
    exact ((hcomma.andThen fun _ => pField_consumes hpv).andThen fun _ =>
      consumes_spaces.map).mono (by omega)
  · rw [List.mem_singleton.mp hp]
    exact (consumes_word1 '}' (c := 0x7D) ParseError.ObjectEnd (by decide) (by decide)).map

/-- The comma is read before another member. -/
theorem pObjectHelp_agree (h : Agree n pv qv) (l : List (Snippet × AST)) (hpv : Consumes 1 pv) :
    Agree (n + 1) (pObjectHelp pv l) (pObjectHelp qv l) := by
  have hcomma := consumes_mark ',' (c := 0x2C) ParseError.ObjectEnd (by decide) (by decide)
  refine Agree.oneOf (.cons ?_ (.cons (Agree.refl _ _) .nil))
  refine Agree.andThen ?_ (hcomma.andThen fun _ => pField_consumes hpv) fun _ => Agree.refl _ _
  exact (Agree.refl _ _).andThen hcomma fun _ => (pField_agree h).mono (by omega)

/-- The members of an object agree when the readers of their values do. -/
theorem pEntries_agree (h : Agree n pv qv) (hpv : Consumes 1 pv) (l : List (Snippet × AST)) :
    Agree n (pEntries pv l) (pEntries qv l) := by
  intro s hs hlt
  have hlen := hs.length
  exact loopHelp_agree (fun l => pObjectHelp_agree h l hpv) (pObjectHelp_consumes hpv) hs
    (hlt.trans (Nat.lt_succ_self n)) (by omega) (by omega)

/-- Objects agree one level further than their values. -/
theorem pObject_agree (h : Agree n pv qv) (hpv : Consumes 1 pv) :
    Agree (n + 1) (pObject pv) (pObject qv) := by
  have hopen := consumes_mark '{' (c := 0x7B) ParseError.Start (by decide) (by decide)
  refine (Agree.refl _ _).andThen hopen fun _ =>
    Agree.oneOf (.cons ?_ (.cons (Agree.refl _ _) .nil))
  refine ((pField_agree h).mono (by omega)).andThen (pField_consumes hpv) fun entry => ?_
  exact (Agree.refl _ _).andThen consumes_spaces fun _ => (pEntries_agree h hpv _).mono (by omega)

/-- A number of elements greater than the text changes nothing. -/
theorem pArrayHelp_agree (h : Agree n pv qv) (hpv : Consumes 1 pv) {m m' : ℕ} {s : State}
    (l : List AST) (hs : Inside s) (hn : s.rest.length < n) (hm : s.rest.length < m)
    (hm' : s.rest.length < m') : pArrayHelp pv m l s = pArrayHelp qv m' l s := by
  have hcomma := consumes_mark ',' (c := 0x2C) ParseError.ArrayEnd (by decide) (by decide)
  induction m generalizing m' s l with
  | zero => exact absurd hm (Nat.not_lt_zero _)
  | succ m ih =>
    cases m' with
    | zero => exact absurd hm' (Nat.not_lt_zero _)
    | succ m' =>
      rw [pArrayHelp, pArrayHelp]
      -- the elements after this one, from any later place
      have hlater : ∀ entry, Agree s.rest.length
          (pArrayHelp pv m (entry :: l)) (pArrayHelp qv m' (entry :: l)) :=
        fun entry t ht hlt => ih _ ht (by omega) (by omega) (by omega)
      have hvalue : Agree (s.rest.length + 1)
          (andThen (fun _ => pv) (andThen (fun _ => spaces) (word1 ',' ParseError.ArrayEnd)))
          (andThen (fun _ => qv) (andThen (fun _ => spaces) (word1 ',' ParseError.ArrayEnd))) :=
        (Agree.refl _ _).andThen hcomma fun _ => h.mono (by omega)
      refine Agree.oneOf (.cons ?_ (.cons (Agree.refl _ _) .nil)) s hs (Nat.lt_succ_self _)
      refine hvalue.andThen (hcomma.andThen fun _ => hpv) fun entry => ?_
      exact (Agree.refl _ _).andThen consumes_spaces fun _ => (hlater entry).mono (by omega)

/-- The elements of an array agree when their readers do. -/
theorem pElements_agree (h : Agree n pv qv) (hpv : Consumes 1 pv) (l : List AST) :
    Agree n (pElements pv l) (pElements qv l) := by
  intro s hs hlt
  have hlen := hs.length
  exact pArrayHelp_agree h hpv l hs hlt (by omega) (by omega)

/-- Arrays agree one level further than their values. -/
theorem pArray_agree (h : Agree n pv qv) (hpv : Consumes 1 pv) :
    Agree (n + 1) (pArray pv) (pArray qv) := by
  have hopen := consumes_mark '[' (c := 0x5B) ParseError.Start (by decide) (by decide)
  refine (Agree.refl _ _).andThen hopen fun _ =>
    Agree.oneOf (.cons ?_ (.cons (Agree.refl _ _) .nil))
  refine (h.mono (by omega)).andThen hpv fun entry => ?_
  exact (Agree.refl _ _).andThen consumes_spaces fun _ => (pElements_agree h hpv _).mono (by omega)

/-- A value inside another is later by the mark before it. -/
theorem valueWith_agree (h : Agree n pv qv) (hpv : Consumes 1 pv) :
    Agree (n + 1) (valueWith host isAlpha pv) (valueWith host isAlpha qv) := by
  refine Agree.addLocation (Agree.oneOf (.cons (Agree.refl _ _) (.cons (pObject_agree h hpv)
    (.cons (pArray_agree h hpv) ?_))))
  exact .cons (Agree.refl _ _) (.cons (Agree.refl _ _) (.cons (Agree.refl _ _)
    (.cons (Agree.refl _ _) .nil)))

/-! ## The recursion of the source -/

/-- A greater depth changes nothing. -/
theorem valueTo_agree (depth depth' : ℕ) :
    Agree (min depth depth') (valueTo host isAlpha depth) (valueTo host isAlpha depth') := by
  induction depth generalizing depth' with
  | zero =>
    intro s hs hlt
    rw [Nat.zero_min] at hlt
    exact absurd hlt (Nat.not_lt_zero _)
  | succ depth ih =>
    cases depth' with
    | zero =>
      intro s hs hlt
      rw [Nat.min_zero] at hlt
      exact absurd hlt (Nat.not_lt_zero _)
    | succ depth' =>
      rw [Nat.succ_min_succ]
      exact valueWith_agree (ih depth') (valueTo_gives depth).consumes

/-- The reader of values up to a depth is the unbounded one on texts no longer than that. -/
theorem valueTo_pValue (depth : ℕ) :
    Agree depth (valueTo host isAlpha depth) (pValue host isAlpha) := by
  intro s hs hlt
  have hlen := hs.length
  exact valueTo_agree depth _ s hs (lt_min hlt (by omega))

/-- `pValue` reads the values inside a value with itself. -/
theorem pValue_eq (hs : Inside s) :
    pValue host isAlpha s = valueWith host isAlpha (pValue host isAlpha) s := by
  have hlen := hs.length
  have hstep : valueWith host isAlpha (valueTo host isAlpha s.rest.length) s
      = valueWith host isAlpha (pValue host isAlpha) s :=
    valueWith_agree (valueTo_pValue _) (valueTo_gives _).consumes s hs (Nat.lt_succ_self _)
  rw [← hstep, pValue, ← hlen]
  rfl

/-- An array goes on after an element with the elements read so far. -/
theorem pElements_eq (hs : Inside s) (l : List AST) :
    pElements (pValue host isAlpha) l s = oneOf ParseError.ArrayEnd
      [andThen (fun entry =>
          andThen (fun _ => pElements (pValue host isAlpha) (entry :: l)) spaces)
        (andThen (fun _ => pValue host isAlpha)
          (andThen (fun _ => spaces) (word1 ',' ParseError.ArrayEnd))),
        map (fun _ => .Array l.reverse) (word1 ']' ParseError.ArrayEnd)] s := by
  have hpv : Consumes 1 (pValue host isAlpha) := pValue_gives.consumes
  have hcomma := consumes_mark ',' (c := 0x2C) ParseError.ArrayEnd (by decide) (by decide)
  have hlater : ∀ entry, Agree (s.end_ - s.pos)
      (pArrayHelp (pValue host isAlpha) (s.end_ - s.pos) (entry :: l))
      (pElements (pValue host isAlpha) (entry :: l)) := by
    intro entry t ht hlt
    have hlen := ht.length
    exact pArrayHelp_agree (Agree.refl _ _) hpv _ ht hlt hlt (by omega)
  have hlen := hs.length
  rw [pElements, pArrayHelp]
  refine Agree.oneOf (.cons ?_ (.cons (Agree.refl _ _) .nil)) s hs (Nat.lt_succ_self _)
  refine (Agree.refl _ _).andThen (hcomma.andThen fun _ => hpv) fun entry => ?_
  exact (Agree.refl _ _).andThen consumes_spaces fun _ => (hlater entry).mono (by omega)

/-- The loop over the members ends by itself, with any number of rounds that covers the text. -/
theorem pEntries_eq (hs : Inside s) (l : List (Snippet × AST)) (spent : PStep ParseError AST_)
    {rounds : ℕ} (h : s.rest.length < rounds) :
    pEntries (pValue host isAlpha) l s =
      loopHelp spent (pObjectHelp (pValue host isAlpha)) rounds s l .eok .eerr := by
  have hpv : Consumes 1 (pValue host isAlpha) := pValue_gives.consumes
  have hlen := hs.length
  exact loopHelp_agree (fun l => Agree.refl _ _) (pObjectHelp_consumes hpv) hs
    (Nat.lt_succ_self _) (by omega) h

end

end Json

import EcoCompiler.JsonTokens

/-! # The parser accepts JSON exactly

    * `AST_.shape`, `treeShape` — what a tree is, its places left out;
    * `valueWith_takes`, `valueWith_gives` — one value, given the values inside it;
    * `pValue_takes`, `pValue_gives` — values to any depth;
    * `parse_of_file`, `file_of_parse` — the texts that are accepted, and what they are read as. -/

namespace Json

open Primitives ParseSpace JsonGrammar

/-! ## Shapes -/

mutual

/-- The value without the places of its parts. -/
def AST_.shape : AST_ → Encode.Value
  | .Array elements => .Array (elementShapes elements)
  | .Object entries => .Object (entryShapes entries)
  | .String snippet => .StringVal snippet.text
  | .Int n => .Integer n
  | .TRUE => .Boolean true
  | .FALSE => .Boolean false
  | .NULL => .Null

/-- The shapes of the elements of an array. -/
def elementShapes : List AST → List Encode.Value
  | [] => []
  | ⟨_, value⟩ :: elements => value.shape :: elementShapes elements

/-- The shapes of the entries of an object. -/
def entryShapes : List (Snippet × AST) → List (Text × Encode.Value)
  | [] => []
  | (key, ⟨_, value⟩) :: entries => (key.text, value.shape) :: entryShapes entries

end

section

variable (host : Host)

mutual

/-- The value that is written, where numbers are what the host reads. -/
def treeShape : Tree → Encode.Value
  | .array ts => .Array (treeShapes ts)
  | .object ms => .Object (memberShapes ms)
  | .string raw => .StringVal raw
  | .number raw => .Integer (host.readOnto 0 raw)
  | .true => .Boolean true
  | .false => .Boolean false
  | .null => .Null

/-- The shapes of trees. -/
def treeShapes : List Tree → List Encode.Value
  | [] => []
  | t :: ts => treeShape t :: treeShapes ts

/-- The shapes of members. -/
def memberShapes : List (Text × Tree) → List (Text × Encode.Value)
  | [] => []
  | (key, t) :: ms => (key, treeShape t) :: memberShapes ms

end

variable {host} {isAlpha : ℕ → Bool} {s s' : State} {r : Text} {pv : Parser ParseError AST} {k : ℕ}

/-- The values a parser gives are written where it reads. -/
def Gives (host : Host) (pv : Parser ParseError AST) : Prop :=
  ∀ (s s' : State) (ast : AST), Inside s → (pv s).Gives ast s' → Within s s' ∧
    ∃ t, Value Whole s.rest t s'.rest ∧ ast.value.shape = treeShape host t

/-- The parser reads the values of a text that is shorter than `k`. -/
def TakesTo (host : Host) (pv : Parser ParseError AST) (k : ℕ) : Prop :=
  ∀ (s : State) (t : Tree) (r : Text), Inside s → s.rest.length < k → Value Whole s.rest t r →
    EndsValue r → ∃ ast : AST, Takes pv s ast r ∧ ast.value.shape = treeShape host t

/-- What is left is no longer after a production. -/
theorem TakesTo.mono {k' : ℕ} (hpv : TakesTo host pv k) (hle : k' ≤ k) : TakesTo host pv k' :=
  fun s t r hs hk => hpv s t r hs (hk.trans_le hle)

/-! ## Members -/

/-- A member of the grammar is read, given a reader of values. -/
theorem pField_takes (hpv : TakesTo host pv k) (hs : Inside s) (hk : s.rest.length < k)
    {t : Tree} {key s₁ s₂ s₃ s₄ : Text} (hquote : s.rest = 0x22 :: s₁) (hkey : Body s₁ key s₂)
    (colon : Ws s₂ (0x3A :: s₃)) (between : Ws s₃ s₄) (h : Value Whole s₄ t r) (hr : EndsValue r) :
    ∃ snippet ast, Takes (pField pv) s (snippet, ast) r ∧ snippet.text = key ∧
      ast.value.shape = treeShape host t := by
  obtain ⟨snippet, ⟨a₁, hg₁, hw₁, hr₁⟩, htext⟩ :=
    pString_takes (e := ParseError.ObjectField) hs hquote hkey
  have ha₁ := hw₁.inside hs
  obtain ⟨a₂, hg₂, hw₂, hr₂⟩ := spaces_takes ha₁ (hr₁ ▸ colon) (noWs_cons (by decide))
  have ha₂ := hw₂.inside ha₁
  obtain ⟨a₃, hg₃, hw₃, hr₃⟩ :=
    word1_takes ':' (e := ParseError.ObjectColon) ha₂ (by decide) (by decide) hr₂
  have ha₃ := hw₃.inside ha₂
  obtain ⟨a₄, hg₄, hw₄, hr₄⟩ := spaces_takes ha₃ (hr₃ ▸ between) h.noWs
  have ha₄ := hw₄.inside ha₃
  have hlen : a₄.rest.length < k := by
    have h₁ := hkey.length_eq
    have h₂ := colon.length_le
    have h₃ := between.length_le
    rw [hquote, List.length_cons] at hk
    rw [List.length_cons] at h₂
    rw [hr₄]
    omega
  obtain ⟨ast, ⟨a₅, hg₅, hw₅, hr₅⟩, hshape⟩ := hpv a₄ t r ha₄ hlen (hr₄ ▸ h) hr
  refine ⟨snippet, ast, ⟨a₅, ?_, ?_, hr₅⟩, htext, hshape⟩
  · exact gives_andThen hg₁
      (gives_map (gives_andThen (gives_andThen (gives_andThen hg₂ hg₃) hg₄) hg₅))
  · exact hw₁.trans (hw₂.trans (hw₃.trans (hw₄.trans hw₅)))

theorem pField_eerr (hs : Inside s) (h : s.rest.head? ≠ some 0x22) :
    pField pv s = .eerr s.row s.col .ObjectField :=
  andThen_eerr (pString_eerr hs h)

/-- A member that is read is one of the grammar's. -/
theorem pField_gives (hpv : Gives host pv) (hs : Inside s) {snippet : Snippet} {ast : AST}
    (h : (pField pv s).Gives (snippet, ast) s') : Within s s' ∧ ∃ t s₁ s₂ s₃ s₄,
      s.rest = 0x22 :: s₁ ∧ Body s₁ snippet.text s₂ ∧ Ws s₂ (0x3A :: s₃) ∧ Ws s₃ s₄ ∧
        Value Whole s₄ t s'.rest ∧ ast.value.shape = treeShape host t := by
  obtain ⟨key, a₁, hg₁, h⟩ := andThen_gives h
  obtain ⟨value, h, heq⟩ := map_gives h
  obtain ⟨rfl, rfl⟩ := Prod.mk.inj heq
  obtain ⟨_, a₄, h, hg₅⟩ := andThen_gives h
  obtain ⟨_, a₃, h, hg₄⟩ := andThen_gives h
  obtain ⟨_, a₂, hg₂, hg₃⟩ := andThen_gives h
  obtain ⟨hw₁, s₁, hquote, hkey⟩ := pString_gives hs hg₁
  have ha₁ := hw₁.inside hs
  obtain ⟨hw₂, hws₂, -⟩ := spaces_gives ha₁ hg₂
  have ha₂ := hw₂.inside ha₁
  obtain ⟨hw₃, hcolon⟩ := word1_gives ha₂ (c := 0x3A) (by decide) (by decide) hg₃
  have ha₃ := hw₃.inside ha₂
  obtain ⟨hw₄, hws₄, -⟩ := spaces_gives ha₃ hg₄
  have ha₄ := hw₄.inside ha₃
  obtain ⟨hw₅, t, hvalue, hshape⟩ := hpv a₄ s' ast ha₄ hg₅
  exact ⟨hw₁.trans (hw₂.trans (hw₃.trans (hw₄.trans hw₅))), t, s₁, a₁.rest, a₃.rest, a₄.rest,
    hquote, hkey, hcolon ▸ hws₂, hws₄, hvalue, hshape⟩

/-! ## Objects -/

/-- A round of the loop over the members after the first. -/
theorem pObjectHelp_takes (hpv : TakesTo host pv k) (hs : Inside s) (hk : s.rest.length < k)
    {ms : List (Text × Tree)} (h : MoreMembers Whole s.rest ms r)
    (revEntries : List (Snippet × AST)) :
    (ms = [] ∧ Takes (pObjectHelp pv revEntries) s (.done (.Object revEntries.reverse)) r) ∨
      ∃ key t ms' s₁ snippet ast, ms = (key, t) :: ms' ∧ MoreMembers Whole s₁ ms' r ∧
        s₁.length < s.rest.length ∧ snippet.text = key ∧ ast.value.shape = treeShape host t ∧
        Takes (pObjectHelp pv revEntries) s (.loop ((snippet, ast) :: revEntries)) s₁ := by
  rcases h with ⟨hclose, rfl⟩ | ⟨s', hcomma, hmembers⟩
  · refine Or.inl ⟨rfl, ?_⟩
    -- a closing brace: the alternative that starts with a comma is refused
    have hskip : ∀ (f : Unit → Parser ParseError Unit)
      (g : Unit → Parser ParseError (Snippet × AST))
        (w : (Snippet × AST) → Parser ParseError (Step (List (Snippet × AST)) AST_)),
        andThen w (andThen g (andThen f (word1 ',' .ObjectEnd))) s
          = .eerr s.row s.col .ObjectEnd := by
      intro f g w
      refine andThen_eerr (andThen_eerr (andThen_eerr (word1_eerr hs (c := 0x2C) (by decide)
        (by decide) ?_)))
      rw [hclose, List.head?_cons]
      decide
    have hword := word1_takes '}' (e := ParseError.ObjectEnd) hs (c := 0x7D) (by decide) (by decide)
      hclose
    rw [Takes, pObjectHelp, oneOf_skip (hskip _ _ _)]
    exact hword.map.oneOf
  -- a comma, then one member more and the loop goes on
  · obtain ⟨key, t, ms', s₁, s₂, s₃, s₄, s₅, s₆, rfl, before, hkey, colon, between, h, after,
        hmore⟩ :=
      members_iff.mp hmembers
    obtain ⟨a₁, hg₁, hw₁, hr₁⟩ :=
      word1_takes ',' (e := ParseError.ObjectEnd) hs (by decide) (by decide) hcomma
    have ha₁ := hw₁.inside hs
    obtain ⟨a₂, hg₂, hw₂, hr₂⟩ := spaces_takes ha₁ (hr₁ ▸ before) (noWs_cons (by decide))
    have ha₂ := hw₂.inside ha₁
    have h₁ := before.length_le
    have h₂ := hkey.length_eq
    have h₃ := colon.length_le
    have h₄ := between.length_le
    have h₅ := value_length h
    have h₆ := after.length_le
    have h₀ := congrArg List.length hcomma
    simp only [List.length_cons] at h₀ h₁ h₃
    obtain ⟨snippet, ast, ⟨a₃, hg₃, hw₃, hr₃⟩, htext, hshape⟩ :=
      pField_takes hpv ha₂ (by rw [hr₂, List.length_cons]; omega) hr₂ hkey colon between h
        (after.stops hmore.stops)
    have ha₃ := hw₃.inside ha₂
    obtain ⟨a₄, hg₄, hw₄, hr₄⟩ := spaces_takes ha₃ (hr₃ ▸ after) hmore.noWs
    refine Or.inr ⟨key, t, ms', s₆, snippet, ast, rfl, hmore, by omega, htext, hshape, ?_⟩
    refine Takes.oneOf ⟨a₄, ?_, hw₁.trans (hw₂.trans (hw₃.trans hw₄)), hr₄⟩
    exact gives_andThen (gives_andThen (gives_andThen hg₁ hg₂) hg₃) (gives_map hg₄)

/-- One round of the object's loop: the end, or a comma and a member. -/
theorem pObjectHelp_gives (hpv : Gives host pv) (hs : Inside s) {revEntries : List (Snippet × AST)}
    {step : Step (List (Snippet × AST)) AST_} (h : (pObjectHelp pv revEntries s).Gives step s') :
    Within s s' ∧ ((step = .done (.Object revEntries.reverse) ∧ s.rest = 0x7D :: s'.rest) ∨
      ∃ snippet ast t s₀ s₁ s₂ s₃ s₄ s₅, step = .loop ((snippet, ast) :: revEntries) ∧
        s.rest = 0x2C :: s₀ ∧ Ws s₀ (0x22 :: s₁) ∧ Body s₁ snippet.text s₂ ∧ Ws s₂ (0x3A :: s₃) ∧
        Ws s₃ s₄ ∧ Value Whole s₄ t s₅ ∧ Ws s₅ s'.rest ∧ ast.value.shape = treeShape host t) := by
  obtain ⟨p, hp, h⟩ := oneOf_gives h
  rcases List.mem_cons.mp hp with rfl | hp
  · obtain ⟨⟨snippet, ast⟩, a₃, hfield, hg₄⟩ := andThen_gives h
    obtain ⟨_, hlast, rfl⟩ := map_gives hg₄
    obtain ⟨_, a₂, hspaces, hg₃⟩ := andThen_gives hfield
    obtain ⟨_, a₁, hg₁, hg₂⟩ := andThen_gives hspaces
    obtain ⟨hw₁, hcomma⟩ := word1_gives hs (c := 0x2C) (by decide) (by decide) hg₁
    have ha₁ := hw₁.inside hs
    obtain ⟨hw₂, hws₂, -⟩ := spaces_gives ha₁ hg₂
    have ha₂ := hw₂.inside ha₁
    obtain ⟨hw₃, t, s₁, s₂, s₃, s₄, hquote, hkey, colon, between, hvalue, hshape⟩ :=
      pField_gives hpv ha₂ hg₃
    obtain ⟨hw₄, hws₄, -⟩ := spaces_gives (hw₃.inside ha₂) hlast
    exact ⟨hw₁.trans (hw₂.trans (hw₃.trans hw₄)), Or.inr ⟨snippet, ast, t, a₁.rest, s₁, s₂, s₃, s₄,
      a₃.rest, rfl, hcomma, hquote ▸ hws₂, hkey, colon, between, hvalue, hws₄, hshape⟩⟩
  · rw [List.mem_singleton] at hp
    subst hp
    obtain ⟨_, hg, rfl⟩ := map_gives h
    obtain ⟨hw, hclose⟩ := word1_gives hs (c := 0x7D) (by decide) (by decide) hg
    exact ⟨hw, Or.inl ⟨rfl, hclose⟩⟩

/-- The loop over the members after the first. -/
theorem loop_takes (hpv : TakesTo host pv k) {spent : PStep ParseError AST_} (n : ℕ)
    (hs : Inside s) (hk : s.rest.length < k) (hn : s.rest.length < n) {ms : List (Text × Tree)}
    (h : MoreMembers Whole s.rest ms r) (revEntries : List (Snippet × AST)) :
    ∃ entries s', (∀ (eok : AST_ → State → PStep ParseError AST_)
        (eerr : ℕ → ℕ → (ℕ → ℕ → ParseError) → PStep ParseError AST_),
        (∀ v s, (eok v s).Gives v s) →
        (loopHelp spent (pObjectHelp pv) n s revEntries eok eerr).Gives
          (.Object (revEntries.reverse ++ entries)) s') ∧
      Within s s' ∧ s'.rest = r ∧ entryShapes entries = memberShapes host ms := by
  induction n generalizing s ms revEntries with
  | zero => exact absurd hn (Nat.not_lt_zero _)
  | succ n ih =>
    rcases pObjectHelp_takes hpv hs hk h revEntries with ⟨rfl, s', hgives, hwithin, hrest⟩ |
      ⟨key, t, ms', s₁, snippet, ast, rfl, hmore, hlen, htext, hshape, a, hgives, hwithin, hrest⟩
    · refine ⟨[], s', fun eok eerr heok => ?_, hwithin, hrest, rfl⟩
      rw [List.append_nil]
      exact gives_loopHelp_done heok hgives
    · obtain ⟨entries, s', hg, hw, hr, hshapes⟩ := ih (hwithin.inside hs) (by rw [hrest]; omega)
        (by rw [hrest]; omega) (hrest ▸ hmore) ((snippet, ast) :: revEntries)
      refine ⟨(snippet, ast) :: entries, s', fun eok eerr heok => ?_, hwithin.trans hw, hr, ?_⟩
      · rw [List.reverse_cons, List.append_assoc] at hg
        exact gives_loopHelp_loop heok hgives hg
      · rw [memberShapes, ← hshapes, ← hshape, ← htext]
        rfl

/-- The members that follow the first are read to the closing brace. -/
theorem pEntries_takes (hpv : TakesTo host pv k) (hs : Inside s) (hk : s.rest.length < k)
    {ms : List (Text × Tree)} (h : MoreMembers Whole s.rest ms r)
    (revEntries : List (Snippet × AST)) : ∃ entries,
      Takes (pEntries pv revEntries) s (.Object (revEntries.reverse ++ entries)) r ∧
        entryShapes entries = memberShapes host ms := by
  have hlen : s.rest.length < s.end_ - s.pos + 1 := by
    rw [hs.length]
    omega
  obtain ⟨entries, s', hg, hw, hr, hshapes⟩ := loop_takes hpv _ hs hk hlen h revEntries
  exact ⟨entries, ⟨s', hg _ _ fun v s => Or.inr rfl, hw, hr⟩, hshapes⟩

/-- Members that are read are the grammar's. -/
theorem pEntries_gives (hpv : Gives host pv) (hs : Inside s) {revEntries : List (Snippet × AST)}
    {value : AST_} (h : (pEntries pv revEntries s).Gives value s') :
    Within s s' ∧ ∃ entries ms, value = .Object (revEntries.reverse ++ entries) ∧
      MoreMembers Whole s.rest ms s'.rest ∧ entryShapes entries = memberShapes host ms := by
  have hrule : Inside s → Within s s' ∧ ∃ entries ms,
      value = .Object (revEntries.reverse ++ entries) ∧ MoreMembers Whole s.rest ms s'.rest ∧
        entryShapes entries = memberShapes host ms := by
    refine loopHelp_gives (P := fun s revEntries value s' => Inside s → Within s s' ∧
      ∃ entries ms, value = .Object (revEntries.reverse ++ entries) ∧
        MoreMembers Whole s.rest ms s'.rest ∧ entryShapes entries = memberShapes host ms)
      (fun v s => not_gives_eerr) ?_ ?_ ?_ (fun row col e v s => not_gives_eerr) h
    · intro s l v s' hg hs
      obtain ⟨hw, ⟨heq, hclose⟩ | ⟨_, _, _, _, _, _, _, _, _, heq, -⟩⟩ :=
        pObjectHelp_gives hpv hs hg
      · obtain rfl := Step.done.inj heq
        exact ⟨hw, [], [], by rw [List.append_nil], Or.inl ⟨hclose, rfl⟩, rfl⟩
      · cases heq
    · intro s l l' a v s' hg hrest hs
      obtain ⟨hw, ⟨heq, -⟩ | ⟨snippet, ast, t, s₀, s₁, s₂, s₃, s₄, s₅, heq, hcomma, before, hkey,
        colon, between, hvalue, after, hshape⟩⟩ := pObjectHelp_gives hpv hs hg
      · cases heq
      · obtain rfl := Step.loop.inj heq
        obtain ⟨hw', entries, ms, rfl, hmore, hshapes⟩ := hrest (hw.inside hs)
        refine ⟨hw.trans hw', (snippet, ast) :: entries, (snippet.text, t) :: ms, ?_, ?_, ?_⟩
        · rw [List.reverse_cons, List.append_assoc]
          rfl
        · exact Or.inr
            ⟨s₀, hcomma, members_iff.mpr ⟨_, t, ms, s₁, s₂, s₃, s₄, s₅, a.rest, rfl, before,
            hkey, colon, between, hvalue, after, hmore⟩⟩
        · rw [memberShapes, ← hshapes, ← hshape]
          rfl
    · intro v s v' s' hg
      obtain ⟨rfl, rfl⟩ := gives_inj hg (Or.inr rfl)
      exact ⟨rfl, rfl⟩
  exact hrule hs

theorem pObject_eerr (hs : Inside s) (h : s.rest.head? ≠ some 0x7B) :
    pObject pv s = .eerr s.row s.col ParseError.Start :=
  andThen_eerr (andThen_eerr (word1_eerr hs (c := 0x7B) (by decide) (by decide) h))

/-- An opening brace, and the members or the closing brace. -/
theorem pObject_takes (hpv : TakesTo host pv k) (hs : Inside s) {s₀ : Text}
    (hopen : s.rest = 0x7B :: s₀) (hk : s₀.length < k) {ms : List (Text × Tree)}
    (h : Ws s₀ (0x7D :: r) ∧ ms = [] ∨ Members Whole s₀ ms r) : ∃ entries,
      Takes (pObject pv) s (.Object entries) r ∧ entryShapes entries = memberShapes host ms := by
  obtain ⟨a₁, hg₁, hw₁, hr₁⟩ :=
    word1_takes '{' (e := ParseError.Start) hs (by decide) (by decide) hopen
  have ha₁ := hw₁.inside hs
  rcases h with ⟨hclose, rfl⟩ | hmembers
  -- no members: the first field is refused at the closing brace
  · obtain ⟨a₂, hg₂, hw₂, hr₂⟩ := spaces_takes ha₁ (hr₁ ▸ hclose) (noWs_cons (by decide))
    have ha₂ := hw₂.inside ha₁
    have hfield : a₂.rest.head? ≠ some 0x22 := by
      rw [hr₂, List.head?_cons]
      simp
    have hword := word1_takes '}' (e := ParseError.ObjectEnd) ha₂ (by decide) (by decide)
      hr₂
    obtain ⟨a₃, hg₃, hw₃, hr₃⟩ := (hword.map (f := fun _ => AST_.Object [])).oneOf
      (e := ParseError.ObjectFirstField) (l := [])
    refine ⟨[], ⟨a₃, gives_andThen (gives_andThen hg₁ hg₂) ?_, hw₁.trans (hw₂.trans hw₃), hr₃⟩, rfl⟩
    rw [oneOf_skip (andThen_eerr (pField_eerr ha₂ hfield))]
    exact hg₃
  · obtain ⟨key, t, ms', s₁, s₂, s₃, s₄, s₅, s₆, rfl, before, hkey, colon, between, h, after,
        hmore⟩ :=
      members_iff.mp hmembers
    obtain ⟨a₂, hg₂, hw₂, hr₂⟩ := spaces_takes ha₁ (hr₁ ▸ before) (noWs_cons (by decide))
    have ha₂ := hw₂.inside ha₁
    have h₁ := before.length_le
    have h₂ := hkey.length_eq
    have h₃ := colon.length_le
    have h₄ := between.length_le
    have h₅ := value_length h
    have h₆ := after.length_le
    simp only [List.length_cons] at h₁ h₃
    -- the first member, and the loop over the others
    obtain ⟨snippet, ast, ⟨a₃, hg₃, hw₃, hr₃⟩, htext, hshape⟩ :=
      pField_takes hpv ha₂ (by rw [hr₂, List.length_cons]; omega) hr₂ hkey colon between h
        (after.stops hmore.stops)
    have ha₃ := hw₃.inside ha₂
    obtain ⟨a₄, hg₄, hw₄, hr₄⟩ := spaces_takes ha₃ (hr₃ ▸ after) hmore.noWs
    have ha₄ := hw₄.inside ha₃
    obtain ⟨entries, ⟨a₅, hg₅, hw₅, hr₅⟩, hshapes⟩ :=
      pEntries_takes hpv ha₄ (by rw [hr₄]; omega) (hr₄ ▸ hmore) [(snippet, ast)]
    have hfirst : Takes (andThen (fun entry => andThen (fun _ => pEntries pv [entry]) spaces)
        (pField pv)) a₂ (.Object ((snippet, ast) :: entries)) r :=
      ⟨a₅, gives_andThen hg₃ (gives_andThen hg₄ hg₅), hw₃.trans (hw₄.trans hw₅), hr₅⟩
    obtain ⟨a₆, hg₆, hw₆, hr₆⟩ := hfirst.oneOf (e := ParseError.ObjectFirstField)
      (l := [map (fun _ => AST_.Object []) (word1 '}' ParseError.ObjectEnd)])
    refine ⟨(snippet, ast) :: entries, ⟨a₆, gives_andThen (gives_andThen hg₁ hg₂) hg₆,
      hw₁.trans (hw₂.trans hw₆), hr₆⟩, ?_⟩
    rw [memberShapes, ← hshapes, ← hshape, ← htext]
    rfl

/-- An object that is read is one of the grammar's. -/
theorem pObject_gives (hpv : Gives host pv) (hs : Inside s) {value : AST_}
    (h : (pObject pv s).Gives value s') : Within s s' ∧
      ∃ t, Value Whole s.rest t s'.rest ∧ value.shape = treeShape host t := by
  obtain ⟨_, a₂, hspaces, h⟩ := andThen_gives h
  obtain ⟨_, a₁, hg₁, hg₂⟩ := andThen_gives hspaces
  obtain ⟨hw₁, hopen⟩ := word1_gives hs (c := 0x7B) (by decide) (by decide) hg₁
  have ha₁ := hw₁.inside hs
  obtain ⟨hw₂, hws₂, -⟩ := spaces_gives ha₁ hg₂
  have ha₂ := hw₂.inside ha₁
  rw [hopen]
  obtain ⟨p, hp, h⟩ := oneOf_gives h
  rcases List.mem_cons.mp hp with rfl | hp
  · obtain ⟨⟨snippet, ast⟩, a₃, hg₃, h⟩ := andThen_gives h
    obtain ⟨_, a₄, hg₄, hg₅⟩ := andThen_gives h
    obtain ⟨hw₃, t, s₁, s₂, s₃, s₄, hquote, hkey, colon, between, hvalue, hshape⟩ :=
      pField_gives hpv ha₂ hg₃
    have ha₃ := hw₃.inside ha₂
    obtain ⟨hw₄, hws₄, -⟩ := spaces_gives ha₃ hg₄
    have ha₄ := hw₄.inside ha₃
    obtain ⟨hw₅, entries, ms, rfl, hmore, hshapes⟩ := pEntries_gives hpv ha₄ hg₅
    refine ⟨hw₁.trans (hw₂.trans (hw₃.trans (hw₄.trans hw₅))), .object ((snippet.text, t) :: ms),
      .object (members_iff.mpr ⟨_, t, ms, s₁, s₂, s₃, s₄, a₃.rest, a₄.rest, rfl, hquote ▸ hws₂,
        hkey, colon, between, hvalue, hws₄, hmore⟩), ?_⟩
    rw [treeShape, memberShapes, ← hshapes, ← hshape]
    rfl
  · rw [List.mem_singleton] at hp
    subst hp
    obtain ⟨_, hg₃, rfl⟩ := map_gives h
    obtain ⟨hw₃, hclose⟩ := word1_gives ha₂ (c := 0x7D) (by decide) (by decide) hg₃
    exact ⟨hw₁.trans (hw₂.trans hw₃), .object [], .emptyObject (hclose ▸ hws₂), rfl⟩

/-! ## Arrays -/

/-- The elements that follow the first are read to the closing bracket. -/
theorem pArrayHelp_takes (hpv : TakesTo host pv k) (n : ℕ) (hs : Inside s)
    (hk : s.rest.length < k) (hn : s.rest.length < n) {ts : List Tree}
    (h : MoreElements Whole s.rest ts r) (revEntries : List AST) : ∃ elements,
      Takes (pArrayHelp pv n revEntries) s (.Array (revEntries.reverse ++ elements)) r ∧
        elementShapes elements = treeShapes host ts := by
  -- by fuel, which covers what is left of the text
  induction n generalizing s ts revEntries with
  | zero => exact absurd hn (Nat.not_lt_zero _)
  | succ n ih =>
    rcases h with ⟨hclose, rfl⟩ | ⟨s', hcomma, helements⟩
    · have hskip : ∀ (f : Unit → Parser ParseError Unit) (g : Unit → Parser ParseError AST)
          (w : AST → Parser ParseError AST_),
          andThen w (andThen g (andThen f (word1 ',' ParseError.ArrayEnd))) s
            = .eerr s.row s.col .ArrayEnd := by
        intro f g w
        refine andThen_eerr (andThen_eerr (andThen_eerr (word1_eerr hs (c := 0x2C) (by decide)
          (by decide) ?_)))
        rw [hclose, List.head?_cons]
        simp
      have hword := word1_takes ']' (e := ParseError.ArrayEnd) hs (by decide) (by decide)
        hclose
      refine ⟨[], ?_, rfl⟩
      rw [List.append_nil, Takes, pArrayHelp, oneOf_skip (hskip _ _ _)]
      exact hword.map.oneOf
    · obtain ⟨t, ts', s₁, s₂, s₃, rfl, before, hvalue, after, hmore⟩ := elements_iff.mp helements
      obtain ⟨a₁, hg₁, hw₁, hr₁⟩ :=
        word1_takes ',' (e := ParseError.ArrayEnd) hs (by decide) (by decide) hcomma
      have ha₁ := hw₁.inside hs
      obtain ⟨a₂, hg₂, hw₂, hr₂⟩ := spaces_takes ha₁ (hr₁ ▸ before) hvalue.noWs
      have ha₂ := hw₂.inside ha₁
      have h₀ := congrArg List.length hcomma
      have h₁ := before.length_le
      have h₂ := value_length hvalue
      have h₃ := after.length_le
      rw [List.length_cons] at h₀
      obtain ⟨ast, ⟨a₃, hg₃, hw₃, hr₃⟩, hshape⟩ :=
        hpv a₂ t s₂ ha₂ (by rw [hr₂]; omega) (hr₂ ▸ hvalue) (after.stops hmore.stops)
      have ha₃ := hw₃.inside ha₂
      obtain ⟨a₄, hg₄, hw₄, hr₄⟩ := spaces_takes ha₃ (hr₃ ▸ after) hmore.noWs
      have ha₄ := hw₄.inside ha₃
      obtain ⟨elements, ⟨a₅, hg₅, hw₅, hr₅⟩, hshapes⟩ :=
        ih ha₄ (by rw [hr₄]; omega) (by rw [hr₄]; omega) (hr₄ ▸ hmore) (ast :: revEntries)
      rw [List.reverse_cons, List.append_assoc] at hg₅
      refine ⟨ast :: elements, Takes.oneOf ⟨a₅, gives_andThen (gives_andThen (gives_andThen hg₁ hg₂)
        hg₃) (gives_andThen hg₄ hg₅), hw₁.trans (hw₂.trans (hw₃.trans (hw₄.trans hw₅))), hr₅⟩, ?_⟩
      rw [treeShapes, ← hshapes, ← hshape]
      rfl

/-- Elements that are read are the grammar's. -/
theorem pArrayHelp_gives (hpv : Gives host pv) (n : ℕ) (hs : Inside s) {revEntries : List AST}
    {value : AST_} (h : (pArrayHelp pv n revEntries s).Gives value s') : Within s s' ∧
      ∃ elements ts, value = .Array (revEntries.reverse ++ elements) ∧
        MoreElements Whole s.rest ts s'.rest ∧ elementShapes elements = treeShapes host ts := by
  induction n generalizing s revEntries with
  | zero => exact absurd h not_gives_eerr
  | succ n ih =>
    obtain ⟨p, hp, h⟩ := oneOf_gives h
    rcases List.mem_cons.mp hp with rfl | hp
    · obtain ⟨ast, a₃, hvalue, h⟩ := andThen_gives h
      obtain ⟨_, a₂, hspaces, hg₃⟩ := andThen_gives hvalue
      obtain ⟨_, a₁, hg₁, hg₂⟩ := andThen_gives hspaces
      obtain ⟨_, a₄, hg₄, hg₅⟩ := andThen_gives h
      obtain ⟨hw₁, hcomma⟩ := word1_gives hs (c := 0x2C) (by decide) (by decide) hg₁
      have ha₁ := hw₁.inside hs
      obtain ⟨hw₂, hws₂, -⟩ := spaces_gives ha₁ hg₂
      have ha₂ := hw₂.inside ha₁
      obtain ⟨hw₃, t, hvalue, hshape⟩ := hpv a₂ a₃ ast ha₂ hg₃
      have ha₃ := hw₃.inside ha₂
      obtain ⟨hw₄, hws₄, -⟩ := spaces_gives ha₃ hg₄
      obtain ⟨hw₅, elements, ts, rfl, hmore, hshapes⟩ := ih (hw₄.inside ha₃) hg₅
      refine ⟨hw₁.trans (hw₂.trans (hw₃.trans (hw₄.trans hw₅))), ast :: elements, t :: ts, ?_, ?_,
        ?_⟩
      · rw [List.reverse_cons, List.append_assoc]
        rfl
      · exact Or.inr ⟨a₁.rest, hcomma, elements_iff.mpr
          ⟨t, ts, a₂.rest, a₃.rest, a₄.rest, rfl, hws₂, hvalue, hws₄, hmore⟩⟩
      · rw [treeShapes, ← hshapes, ← hshape]
        rfl
    · rw [List.mem_singleton] at hp
      subst hp
      obtain ⟨_, hg, rfl⟩ := map_gives h
      obtain ⟨hw, hclose⟩ := word1_gives hs (c := 0x5D) (by decide) (by decide) hg
      exact ⟨hw, [], [], by rw [List.append_nil], Or.inl ⟨hclose, rfl⟩, rfl⟩

theorem pArray_eerr (hs : Inside s) (h : s.rest.head? ≠ some 0x5B) :
    pArray pv s = .eerr s.row s.col ParseError.Start :=
  andThen_eerr (andThen_eerr (word1_eerr hs (c := 0x5B) (by decide) (by decide) h))

/-- An opening bracket, and the elements or the closing bracket. -/
theorem pArray_takes (hpv : TakesTo host pv k)
    (hbracket : ∀ s, Inside s → s.rest.head? = some 0x5D → ∃ row col e, pv s = .eerr row col e)
    (hs : Inside s) {s₀ : Text} (hopen : s.rest = 0x5B :: s₀) (hk : s₀.length < k) {ts : List Tree}
    (h : Ws s₀ (0x5D :: r) ∧ ts = [] ∨ Elements Whole s₀ ts r) : ∃ elements,
      Takes (pArray pv) s (.Array elements) r ∧ elementShapes elements = treeShapes host ts := by
  obtain ⟨a₁, hg₁, hw₁, hr₁⟩ :=
    word1_takes '[' (e := ParseError.Start) hs (by decide) (by decide) hopen
  have ha₁ := hw₁.inside hs
  rcases h with ⟨hclose, rfl⟩ | helements
  · obtain ⟨a₂, hg₂, hw₂, hr₂⟩ := spaces_takes ha₁ (hr₁ ▸ hclose) (noWs_cons (by decide))
    have ha₂ := hw₂.inside ha₁
    obtain ⟨row, col, e, heq⟩ := hbracket a₂ ha₂ (by rw [hr₂]; rfl)
    have hword := word1_takes ']' (e := ParseError.ArrayEnd) ha₂ (by decide) (by decide)
      hr₂
    obtain ⟨a₃, hg₃, hw₃, hr₃⟩ := (hword.map (f := fun _ => AST_.Array [])).oneOf
      (e := ParseError.Start) (l := [])
    refine ⟨[], ⟨a₃, gives_andThen (gives_andThen hg₁ hg₂) ?_, hw₁.trans (hw₂.trans hw₃), hr₃⟩, rfl⟩
    rw [oneOf_skip (andThen_eerr heq)]
    exact hg₃
  · obtain ⟨t, ts', s₁, s₂, s₃, rfl, before, hvalue, after, hmore⟩ := elements_iff.mp helements
    obtain ⟨a₂, hg₂, hw₂, hr₂⟩ := spaces_takes ha₁ (hr₁ ▸ before) hvalue.noWs
    have ha₂ := hw₂.inside ha₁
    have h₁ := before.length_le
    have h₂ := value_length hvalue
    have h₃ := after.length_le
    obtain ⟨ast, ⟨a₃, hg₃, hw₃, hr₃⟩, hshape⟩ :=
      hpv a₂ t s₂ ha₂ (by rw [hr₂]; omega) (hr₂ ▸ hvalue) (after.stops hmore.stops)
    have ha₃ := hw₃.inside ha₂
    obtain ⟨a₄, hg₄, hw₄, hr₄⟩ := spaces_takes ha₃ (hr₃ ▸ after) hmore.noWs
    have ha₄ := hw₄.inside ha₃
    obtain ⟨elements, ⟨a₅, hg₅, hw₅, hr₅⟩, hshapes⟩ := pArrayHelp_takes hpv (a₄.end_ - a₄.pos + 1)
      ha₄ (by rw [hr₄]; omega) (by rw [ha₄.length]; omega) (hr₄ ▸ hmore) [ast]
    have hfirst : Takes
      (andThen (fun entry => andThen (fun _ => pElements pv [entry]) spaces) pv) a₂
        (.Array (ast :: elements)) r :=
      ⟨a₅, gives_andThen hg₃ (gives_andThen hg₄ hg₅), hw₃.trans (hw₄.trans hw₅), hr₅⟩
    obtain ⟨a₆, hg₆, hw₆, hr₆⟩ := hfirst.oneOf (e := ParseError.Start)
      (l := [map (fun _ => AST_.Array []) (word1 ']' ParseError.ArrayEnd)])
    refine ⟨ast :: elements, ⟨a₆, gives_andThen (gives_andThen hg₁ hg₂) hg₆,
      hw₁.trans (hw₂.trans hw₆), hr₆⟩, ?_⟩
    rw [treeShapes, ← hshapes, ← hshape]
    rfl

/-- An array that is read is one of the grammar's. -/
theorem pArray_gives (hpv : Gives host pv) (hs : Inside s) {value : AST_}
    (h : (pArray pv s).Gives value s') : Within s s' ∧
      ∃ t, Value Whole s.rest t s'.rest ∧ value.shape = treeShape host t := by
  obtain ⟨_, a₂, hspaces, h⟩ := andThen_gives h
  obtain ⟨_, a₁, hg₁, hg₂⟩ := andThen_gives hspaces
  obtain ⟨hw₁, hopen⟩ := word1_gives hs (c := 0x5B) (by decide) (by decide) hg₁
  have ha₁ := hw₁.inside hs
  obtain ⟨hw₂, hws₂, -⟩ := spaces_gives ha₁ hg₂
  have ha₂ := hw₂.inside ha₁
  rw [hopen]
  obtain ⟨p, hp, h⟩ := oneOf_gives h
  rcases List.mem_cons.mp hp with rfl | hp
  · obtain ⟨ast, a₃, hg₃, h⟩ := andThen_gives h
    obtain ⟨_, a₄, hg₄, hg₅⟩ := andThen_gives h
    obtain ⟨hw₃, t, hvalue, hshape⟩ := hpv a₂ a₃ ast ha₂ hg₃
    have ha₃ := hw₃.inside ha₂
    obtain ⟨hw₄, hws₄, -⟩ := spaces_gives ha₃ hg₄
    obtain ⟨hw₅, elements, ts, rfl, hmore, hshapes⟩ := pArrayHelp_gives hpv _ (hw₄.inside ha₃) hg₅
    refine ⟨hw₁.trans (hw₂.trans (hw₃.trans (hw₄.trans hw₅))), .array (t :: ts),
      .array (elements_iff.mpr ⟨t, ts, a₂.rest, a₃.rest, a₄.rest, rfl, hws₂, hvalue, hws₄, hmore⟩),
        ?_⟩
    rw [treeShape, treeShapes, ← hshapes, ← hshape]
    rfl
  · rw [List.mem_singleton] at hp
    subst hp
    obtain ⟨_, hg₃, rfl⟩ := map_gives h
    obtain ⟨hw₃, hclose⟩ := word1_gives ha₂ (c := 0x5D) (by decide) (by decide) hg₃
    exact ⟨hw₁.trans (hw₂.trans hw₃), .array [], .emptyArray (hclose ▸ hws₂), rfl⟩

/-! ## Values -/

/-- The letters of a word, one by one. -/
def Spells (l : Text) (word : List Char) : Prop :=
  List.Forall₂ (fun c w => c.toNat = w.toNat ∧ c.toNat < 0xD800) l word

theorem spells_true : Spells trueWord ['t', 'r', 'u', 'e'] :=
  .cons ⟨rfl, by decide⟩ (.cons ⟨rfl, by decide⟩ (.cons ⟨rfl, by decide⟩
    (.cons ⟨rfl, by decide⟩ .nil)))

theorem spells_false : Spells falseWord ['f', 'a', 'l', 's', 'e'] :=
  .cons ⟨rfl, by decide⟩ (.cons ⟨rfl, by decide⟩ (.cons ⟨rfl, by decide⟩
    (.cons ⟨rfl, by decide⟩ (.cons ⟨rfl, by decide⟩ .nil))))

theorem spells_null : Spells nullWord ['n', 'u', 'l', 'l'] :=
  .cons ⟨rfl, by decide⟩ (.cons ⟨rfl, by decide⟩ (.cons ⟨rfl, by decide⟩
    (.cons ⟨rfl, by decide⟩ .nil)))

theorem not_startsWith {c : UInt16} {l t : Text} (h : t.head? ≠ some c) : ¬ (c :: l) <+: t := by
  rintro ⟨t', rfl⟩
  exact h rfl

/-- The alternatives by their first unit. -/
theorem value_skips (hs : Inside s) (hstring : s.rest.head? ≠ some 0x22) :
    (map AST_.String (pString ParseError.Start) s = .eerr s.row s.col ParseError.Start) :=
  map_eerr (pString_eerr hs hstring)

/-- A word that does not stand at the cursor is not read. -/
theorem word_eerr {l : Text} {word : List Char} {value : AST_} (hs : Inside s)
    (hword : Spells l word) (h : ¬ l <+: s.rest) :
    map (fun _ => value) (keyword isAlpha word ParseError.Start) s
      = .eerr s.row s.col ParseError.Start :=
  map_eerr (keyword_eerr hs hword h)

/-- A value is none of what closes an array. -/
theorem valueWith_eerr (hs : Inside s) (h : s.rest.head? = some 0x5D) :
    ∃ row col e, valueWith host isAlpha pv s = .eerr row col e := by
  have hne : ∀ c : UInt16, c ≠ 0x5D → s.rest.head? ≠ some c := by
    intro c hc heq
    exact hc (Option.some.inj (heq.symm.trans h))
  have hdigit : ∀ u ∈ s.rest.head?, ¬ IsDigit u := by
    intro u hu
    obtain rfl := Option.some.inj (h.symm.trans hu)
    decide
  refine ⟨s.row, s.col, ParseError.Start, ?_⟩
  rw [valueWith, addLocation, k4, k5, k4, oneOf_skip (value_skips hs (hne _ (by decide))),
    oneOf_skip (pObject_eerr hs (hne _ (by decide))),
    oneOf_skip (pArray_eerr hs (hne _ (by decide))),
    oneOf_skip (pInt_eerr host hs hdigit),
    oneOf_skip (word_eerr hs spells_true (not_startsWith (hne _ (by decide)))),
    oneOf_skip (word_eerr hs spells_false (not_startsWith (hne _ (by decide)))),
    oneOf_skip (word_eerr hs spells_null (not_startsWith (hne _ (by decide)))), oneOf_nil]

/-- One level more: values are read when the values inside them are. -/
theorem valueWith_takes (hpv : TakesTo host pv k)
    (hbracket : ∀ s, Inside s → s.rest.head? = some 0x5D → ∃ row col e, pv s = .eerr row col e) :
    TakesTo host (valueWith host isAlpha pv) (k + 1) := by
  intro s t r hs hk h hr
  -- one case for each form of a value; the alternatives tried before its own refuse its first
  -- character
  have hmain : ∃ value : AST_, Takes (oneOf ParseError.Start
      [map .String (pString ParseError.Start), pObject pv, pArray pv, pInt host,
        map (fun _ => .TRUE) (keyword isAlpha ['t', 'r', 'u', 'e'] ParseError.Start),
        map (fun _ => .FALSE) (keyword isAlpha ['f', 'a', 'l', 's', 'e'] ParseError.Start),
        map (fun _ => .NULL) (keyword isAlpha ['n', 'u', 'l', 'l'] ParseError.Start)]) s value r ∧
      value.shape = treeShape host t := by
    generalize hrest : s.rest = s₀ at h hk
    -- the first character tells the forms apart
    have hne : ∀ {c : UInt16} {l : Text} (d : UInt16), s₀ = c :: l → c ≠ d →
        s.rest.head? ≠ some d := by
      intro c l d hcons hcd heq
      rw [hrest, hcons] at heq
      exact hcd (Option.some.inj heq)
    cases h with
    | string hbody =>
      obtain ⟨snippet, htakes, htext⟩ := pString_takes (e := ParseError.Start) hs hrest hbody
      refine ⟨_, htakes.map.oneOf, ?_⟩
      rw [AST_.shape, htext, treeShape]
    | emptyObject hclose =>
      obtain ⟨entries, htakes, hshapes⟩ :=
        pObject_takes hpv hs hrest (Nat.lt_of_succ_lt_succ hk) (Or.inl ⟨hclose, rfl⟩)
      refine ⟨.Object entries, ?_, by rw [AST_.shape, hshapes]; rfl⟩
      rw [Takes, oneOf_skip (value_skips hs (hne _ rfl (by decide)))]
      exact htakes.oneOf
    | object hmembers =>
      obtain ⟨entries, htakes, hshapes⟩ :=
        pObject_takes hpv hs hrest (Nat.lt_of_succ_lt_succ hk) (Or.inr hmembers)
      refine ⟨.Object entries, ?_, by rw [AST_.shape, hshapes]; rfl⟩
      rw [Takes, oneOf_skip (value_skips hs (hne _ rfl (by decide)))]
      exact htakes.oneOf
    | emptyArray hclose =>
      obtain ⟨elements, htakes, hshapes⟩ :=
        pArray_takes hpv hbracket hs hrest (Nat.lt_of_succ_lt_succ hk) (Or.inl ⟨hclose, rfl⟩)
      refine ⟨.Array elements, ?_, by rw [AST_.shape, hshapes]; rfl⟩
      rw [Takes, oneOf_skip (value_skips hs (hne _ rfl (by decide))),
        oneOf_skip (pObject_eerr hs (hne _ rfl (by decide)))]
      exact htakes.oneOf
    | array helements =>
      obtain ⟨elements, htakes, hshapes⟩ :=
        pArray_takes hpv hbracket hs hrest (Nat.lt_of_succ_lt_succ hk) (Or.inr helements)
      refine ⟨.Array elements, ?_, by rw [AST_.shape, hshapes]; rfl⟩
      rw [Takes, oneOf_skip (value_skips hs (hne _ rfl (by decide))),
        oneOf_skip (pObject_eerr hs (hne _ rfl (by decide)))]
      exact htakes.oneOf
    | number hwhole =>
      obtain ⟨u, l, hcons, hu⟩ := hwhole.head
      have hdigit : ∀ d : UInt16, ¬ IsDigit d → u ≠ d := by
        rintro d hd rfl
        exact hd hu
      refine ⟨.Int (host.readOnto 0 _), ?_, rfl⟩
      rw [Takes, oneOf_skip (value_skips hs (hne _ hcons (hdigit _ (by decide)))),
        oneOf_skip (pObject_eerr hs (hne _ hcons (hdigit _ (by decide)))),
        oneOf_skip (pArray_eerr hs (hne _ hcons (hdigit _ (by decide))))]
      exact (pInt_takes host hs (hrest ▸ hwhole) hr).oneOf
    | true =>
      have hdigit : ∀ u ∈ s.rest.head?, ¬ IsDigit u := by
        rw [hrest]
        intro u hu
        obtain rfl := Option.some.inj hu
        decide
      refine ⟨.TRUE, ?_, rfl⟩
      rw [Takes, oneOf_skip (value_skips hs (hne _ rfl (by decide))),
        oneOf_skip (pObject_eerr hs (hne _ rfl (by decide))),
        oneOf_skip (pArray_eerr hs (hne _ rfl (by decide))), oneOf_skip (pInt_eerr host hs hdigit)]
      exact (keyword_takes hs spells_true hrest hr).map.oneOf
    | false =>
      have hdigit : ∀ u ∈ s.rest.head?, ¬ IsDigit u := by
        rw [hrest]
        intro u hu
        obtain rfl := Option.some.inj hu
        decide
      refine ⟨.FALSE, ?_, rfl⟩
      rw [Takes, oneOf_skip (value_skips hs (hne _ rfl (by decide))),
        oneOf_skip (pObject_eerr hs (hne _ rfl (by decide))),
        oneOf_skip (pArray_eerr hs (hne _ rfl (by decide))), oneOf_skip (pInt_eerr host hs hdigit),
        oneOf_skip (word_eerr hs spells_true (not_startsWith (hne _ rfl (by decide))))]
      exact (keyword_takes hs spells_false hrest hr).map.oneOf
    | null =>
      have hdigit : ∀ u ∈ s.rest.head?, ¬ IsDigit u := by
        rw [hrest]
        intro u hu
        obtain rfl := Option.some.inj hu
        decide
      refine ⟨.NULL, ?_, rfl⟩
      rw [Takes, oneOf_skip (value_skips hs (hne _ rfl (by decide))),
        oneOf_skip (pObject_eerr hs (hne _ rfl (by decide))),
        oneOf_skip (pArray_eerr hs (hne _ rfl (by decide))), oneOf_skip (pInt_eerr host hs hdigit),
        oneOf_skip (word_eerr hs spells_true (not_startsWith (hne _ rfl (by decide)))),
        oneOf_skip (word_eerr hs spells_false (not_startsWith (hne _ rfl (by decide))))]
      exact (keyword_takes hs spells_null hrest hr).map.oneOf
  obtain ⟨value, htakes, hshape⟩ := hmain
  obtain ⟨ast, htakes', rfl⟩ := htakes.addLocation
  exact ⟨ast, htakes', hshape⟩

/-- A value that is read is one of the grammar's when those inside it are. -/
theorem valueWith_gives (hpv : Gives host pv) : Gives host (valueWith host isAlpha pv) := by
  intro s s' ast hs h
  obtain ⟨p, hp, h⟩ := oneOf_gives (addLocation_gives h)
  have hword : ∀ {l : Text} {word : List Char} (value : AST_) {t : Tree},
      Spells l word → (∀ r, Value Whole (l ++ r) t r) → value.shape = treeShape host t →
      (map (fun _ => value) (keyword isAlpha word ParseError.Start) s).Gives ast.value s' →
      Within s s' ∧ ∃ t, Value Whole s.rest t s'.rest ∧ ast.value.shape = treeShape host t := by
    intro l word value t hspells hvalue hshape h
    obtain ⟨_, hg, heq⟩ := map_gives h
    obtain ⟨hw, hl⟩ := keyword_gives hs hspells hg
    exact ⟨hw, t, by rw [hl]; exact hvalue _, by rw [heq, hshape]⟩
  simp only [List.mem_cons, List.not_mem_nil, or_false] at hp
  rcases hp with rfl | rfl | rfl | rfl | rfl | rfl | rfl
  · obtain ⟨snippet, hg, heq⟩ := map_gives h
    obtain ⟨hw, t, hquote, hbody⟩ := pString_gives hs hg
    exact ⟨hw, .string snippet.text, by rw [hquote]; exact .string hbody, by rw [heq]; rfl⟩
  · exact pObject_gives hpv hs h
  · exact pArray_gives hpv hs h
  · obtain ⟨hw, raw, hwhole, heq⟩ := pInt_gives host hs h
    exact ⟨hw, .number raw, .number hwhole, by rw [heq]; rfl⟩
  · exact hword .TRUE (t := .true) spells_true .true rfl h
  · exact hword .FALSE (t := .false) spells_false .false rfl h
  · exact hword .NULL (t := .null) spells_null .null rfl h

/-- Values up to a depth are read. -/
theorem valueTo_takes (depth : ℕ) : TakesTo host (valueTo host isAlpha depth) depth := by
  induction depth with
  | zero => exact fun s t r hs hk => absurd hk (Nat.not_lt_zero _)
  | succ depth ih =>
    refine valueWith_takes ih fun s hs h => ?_
    cases depth with
    | zero => exact ⟨_, _, _, rfl⟩
    | succ depth => exact valueWith_eerr hs h

/-- What is read up to a depth is a value of the grammar. -/
theorem valueTo_gives (depth : ℕ) : Gives host (valueTo host isAlpha depth) := by
  induction depth with
  | zero => exact fun s s' ast hs h => absurd h not_gives_eerr
  | succ depth ih => exact valueWith_gives ih

variable (host isAlpha) in
/-- Every value is read. -/
theorem pValue_takes (hs : Inside s) {t : Tree} (h : Value Whole s.rest t r) (hr : EndsValue r) :
    ∃ ast : AST, Takes (pValue host isAlpha) s ast r ∧ ast.value.shape = treeShape host t := by
  have hlen : s.rest.length < s.end_ - s.pos + 1 := by
    rw [hs.length]
    omega
  exact valueTo_takes _ s t r hs hlen h hr

/-- What is read is a value of the grammar. -/
theorem pValue_gives : Gives host (pValue host isAlpha) :=
  fun s s' ast hs h => valueTo_gives _ s s' ast hs h

/-! ## Texts -/

theorem inside_initialState (src : Text) : Inside (initialState src) :=
  ⟨Nat.zero_le _, le_rfl⟩

theorem rest_initialState (src : Text) : (initialState src).rest = src := by
  rw [State.rest, initialState, List.drop_zero, Nat.sub_zero, List.take_length]

variable (host isAlpha) in
/-- A JSON text of unsigned integers is read as what it says. -/
theorem parse_of_file {src : Text} {t : Tree} (h : File Whole src t) :
    ∃ ast, parse host isAlpha src = .ok ast ∧ ast.value.shape = treeShape host t := by
  obtain ⟨s₁, s₂, before, hvalue, after⟩ := h
  have hs := inside_initialState src
  have hno : NoWs [] := by simp [NoWs]
  obtain ⟨a₁, hg₁, hw₁, hr₁⟩ := spaces_takes hs ((rest_initialState src).symm ▸ before) hvalue.noWs
  have ha₁ := hw₁.inside hs
  obtain ⟨ast, ⟨a₂, hg₂, hw₂, hr₂⟩, hshape⟩ := pValue_takes host isAlpha ha₁
    (hr₁ ▸ hvalue) (after.stops (by simp [EndsValue]))
  have ha₂ := hw₂.inside ha₁
  obtain ⟨a₃, hg₃, hw₃, hr₃⟩ := spaces_takes ha₂ (hr₂ ▸ after) hno
  refine ⟨ast,
    fromByteString_ok.mpr ⟨a₃, gives_andThen (gives_andThen hg₁ hg₂) (gives_map hg₃), ?_⟩, hshape⟩
  have ha₃ := hw₃.inside ha₂
  have hlen := ha₃.length
  have hle := ha₃.le
  rw [hr₃, List.length_nil] at hlen
  omega

/-- A text that is parsed is a file of the grammar, with the same tree. -/
theorem file_of_parse {src : Text} {ast : AST} (h : parse host isAlpha src = .ok ast) :
    ∃ t, File Whole src t ∧ ast.value.shape = treeShape host t := by
  obtain ⟨a₃, h, hend⟩ := fromByteString_ok.mp h
  obtain ⟨value, a₂, hvalue, h⟩ := andThen_gives h
  obtain ⟨_, hg₃, rfl⟩ := map_gives h
  obtain ⟨_, a₁, hg₁, hg₂⟩ := andThen_gives hvalue
  have hs := inside_initialState src
  obtain ⟨hw₁, before, -⟩ := spaces_gives hs hg₁
  have ha₁ := hw₁.inside hs
  obtain ⟨hw₂, t, hvalue, hshape⟩ := pValue_gives a₁ a₂ _ ha₁ hg₂
  have ha₂ := hw₂.inside ha₁
  obtain ⟨hw₃, after, -⟩ := spaces_gives ha₂ hg₃
  have hlen := (hw₃.inside ha₂).length
  rw [hend, Nat.sub_self] at hlen
  rw [List.length_eq_zero_iff.mp hlen] at after
  rw [rest_initialState] at before
  exact ⟨t, ⟨a₁.rest, a₂.rest, before, hvalue, after⟩, hshape⟩

end

end Json

import EcoCompiler.PathSegments

/-! # Roots of Windows paths

    * `win32Parse_eq` — the path of a root, entries and trailing separators;
    * `win32NormalizeTail_eq` — the normalized text after the root;
    * `Share.win32NormalizeRoot`, `Share.win32ParseRootEnd` — both root finders on a share. -/

namespace SystemPath

open Fields

theorem isSep_backslash : isSep backslash = true := rfl

/-! ## Splitting -/

/-- `span` stops where the predicate first fails. -/
theorem span_append {a : Type} {pred : a → Bool} {l r : List a} (hl : ∀ c ∈ l, pred c = true)
    (hr : ∀ c ∈ r.head?, pred c = false) : span pred (l ++ r) = (l, r) := by
  induction l with
  | nil =>
    cases r with
    | nil => rfl
    | cons c r =>
      rw [List.nil_append, span, if_neg (by rw [hr c rfl]; decide)]
  | cons c l ih =>
    rw [List.cons_append, span, if_pos (hl c (List.mem_cons_self ..)),
      ih fun d hd => hl d (List.mem_cons_of_mem c hd)]

/-- What `span` gives: the longest prefix that satisfies the predicate, and the rest. -/
theorem span_eq {a : Type} (pred : a → Bool) (l : List a) : ∃ m r, span pred l = (m, r) ∧
    l = m ++ r ∧ (∀ c ∈ m, pred c = true) ∧ ∀ c ∈ r.head?, pred c = false := by
  induction l with
  | nil => exact ⟨[], [], rfl, rfl, by simp, by simp⟩
  | cons c l ih =>
    obtain ⟨m, r, hspan, heq, hm, hr⟩ := ih
    by_cases hc : pred c = true
    · refine ⟨c :: m, r, by rw [span, if_pos hc, hspan], by rw [heq]; rfl, fun d hd => ?_, hr⟩
      rcases List.mem_cons.mp hd with rfl | hd
      · exact hc
      · exact hm d hd
    · refine ⟨[], c :: l, by rw [span, if_neg hc], rfl, by simp, fun d hd => ?_⟩
      obtain rfl := Option.some.inj hd
      exact Bool.eq_false_iff.mpr hc

theorem dropWhile_append {a : Type} {pred : a → Bool} {l r : List a} (hl : ∀ c ∈ l, pred c = true)
    (hr : ∀ c ∈ r.head?, pred c = false) : dropWhile pred (l ++ r) = r := by
  induction l with
  | nil =>
    cases r with
    | nil => rfl
    | cons c r =>
      rw [List.nil_append, dropWhile, if_neg (by rw [hr c rfl]; decide)]
  | cons c l ih =>
    rw [List.cons_append, dropWhile, if_pos (hl c (List.mem_cons_self ..))]
    exact ih fun d hd => hl d (List.mem_cons_of_mem c hd)

/-- Splitting at separators and dropping the empty parts gives the fields. -/
theorem normalizeSegments_splitOnSeps (above : Bool) (l : Text) :
    normalizeSegments above (splitOnSeps l) = normalizeSegments above (fields isSep l) := by
  have hsep : (fun c => (c == slash) || (c == backslash)) = isSep := by
    funext c
    rw [isSep]
    rfl
  have hsplit := flatMap_splitOnP (p := fun c => c == slash) (fun c => c == backslash) l
  rw [hsep] at hsplit
  rw [← normalizeSegments_filter, fields, ← hsplit]
  rfl

theorem isNotSep_iff (c : ℕ) : isNotSep c = true ↔ isSep c = false := by
  rw [isNotSep, Bool.not_eq_true']

/-! ## The path of a normalized text -/

/-- What precedes the last of some entries that are joined. -/
theorem intercalate_concat (sep e : Text) (init : List Text) : sep.intercalate (init ++ [e])
    = (if init = [] then [] else sep.intercalate init ++ sep) ++ e := by
  induction init with
  | nil => simp
  | cons m init ih =>
    cases init with
    | nil => simp [List.intercalate_cons_cons]
    | cons m' init =>
      rw [List.cons_append, List.cons_append, List.intercalate_cons_cons, ← List.cons_append, ih,
        if_neg (List.cons_ne_nil _ _), if_neg (List.cons_ne_nil _ _), List.intercalate_cons_cons]
      simp only [List.append_assoc]

/-- The path of a root, entries and separators after them. -/
theorem win32Parse_eq {root e trail : Text} {init : List Text}
    (hroot : win32ParseRootEnd (root ++ ([backslash].intercalate (init ++ [e]) ++ trail))
      = root.length) (htrail : ∀ c ∈ trail, isSep c = true)
    (hinit : ∀ m ∈ init, IsField isSep m) (he : IsField isSep e) :
    win32Parse (root ++ ([backslash].intercalate (init ++ [e]) ++ trail))
      = fromParts root init e := by
  obtain ⟨before, hbefore⟩ : ∃ before, before
    = (if init = [] then [] else [backslash].intercalate init ++ [backslash]) := ⟨_, rfl⟩
  have hjoin := intercalate_concat [backslash] e init
  rw [← hbefore] at hjoin
  -- from behind: separators, then the last entry, then what stands before it
  have hdrop : dropWhile isSep ([backslash].intercalate (init ++ [e]) ++ trail).reverse
      = e.reverse ++ before.reverse := by
    rw [List.reverse_append, hjoin, List.reverse_append]
    refine dropWhile_append (fun c hc => htrail c (List.mem_reverse.mp hc)) fun c hc => ?_
    obtain ⟨hne, hfield⟩ := he
    cases hrev : e.reverse with
    | nil => exact absurd (List.reverse_eq_nil_iff.mp hrev) hne
    | cons d l =>
      rw [hrev] at hc
      obtain rfl := Option.some.inj hc
      exact hfield d (List.mem_reverse.mp (hrev ▸ List.mem_cons_self ..))
  have hspan : span isNotSep (e.reverse ++ before.reverse) = (e.reverse, before.reverse) := by
    refine span_append (fun c hc => (isNotSep_iff c).mpr (he.2 c (List.mem_reverse.mp hc)))
      fun c hc => ?_
    rw [hbefore] at hc
    split at hc
    · cases hc
    · rw [List.reverse_append] at hc
      obtain rfl := Option.some.inj hc
      rfl
  rw [win32Parse]
  dsimp only
  rw [hroot, List.drop_left, List.take_left, hdrop, hspan, List.reverse_reverse, hbefore]
  congr 1
  by_cases hnil : init = []
  · rw [if_pos hnil, hnil]
    rfl
  · rw [if_neg hnil, List.reverse_append, List.reverse_singleton, List.singleton_append]
    dsimp only
    rw [List.reverse_reverse]
    refine fields_intercalate (p := fun c => c == backslash) rfl fun m hm => ?_
    refine ⟨(hinit m hm).1, fun c hc => ?_⟩
    have hsep := (hinit m hm).2 c hc
    rw [isSep, Bool.or_eq_false_iff] at hsep
    exact hsep.2

/-- The path of a root and separators after it. -/
theorem win32Parse_root (root trail : Text)
    (hroot : win32ParseRootEnd (root ++ trail) = root.length)
    (htrail : ∀ c ∈ trail, isSep c = true) :
    win32Parse (root ++ trail) = fromParts root [] [] := by
  have hdrop : dropWhile isSep trail.reverse = [] := by
    have happend := dropWhile_append (r := ([] : Text))
      (fun c hc => htrail c (List.mem_reverse.mp hc)) (by simp)
    rwa [List.append_nil] at happend
  rw [win32Parse]
  dsimp only
  rw [hroot, List.drop_left, List.take_left, hdrop]
  rfl

/-! ## Reserved names -/

/-- The text is a reserved device name, in any case. -/
def Reserved (d : Text) : Prop := d.map asciiUpper ∈ reservedNames

instance (d : Text) : Decidable (Reserved d) := inferInstanceAs (Decidable (_ ∈ _))

/-- Before a colon the test asks for a reserved name. -/
theorem isReservedName_some (chars : Text) (i : ℕ) :
    isReservedName chars (some i) = true ↔ Reserved (chars.take i) := decide_eq_true_iff

/-- Without a colon the test looks at all but the last character. -/
theorem isReservedName_none (init : Text) (x : ℕ)
    (h : isReservedName (init ++ [x]) none = true) : Reserved init := by
  have hunsnoc : unsnoc (init ++ [x]) = some (init, x) := by
    rw [unsnoc, List.reverse_concat]
    dsimp only
    rw [List.reverse_reverse]
  rw [isReservedName, hunsnoc] at h
  dsimp only at h
  split at h
  · next part heq =>
    split at heq
    · cases heq
    · obtain rfl := Option.some.inj heq
      exact of_decide_eq_true h
  · cases h

/-- A reserved name has at least three characters and none of them is a separator, a dot or a
    colon. -/
theorem reservedNames_spec : ∀ name ∈ reservedNames, 3 ≤ name.length ∧
    ∀ c ∈ name, isSep c = false ∧ c ≠ dot ∧ c ≠ colon := by
  decide

/-- A reserved name is three characters or more, and none of them divides or ends an entry. -/
theorem Reserved.spec {d : Text} (h : Reserved d) : 3 ≤ d.length ∧
    ∀ c ∈ d, isSep c = false ∧ c ≠ dot ∧ c ≠ colon := by
  obtain ⟨hlen, hchars⟩ := reservedNames_spec _ h
  rw [List.length_map] at hlen
  refine ⟨hlen, fun c hc => ?_⟩
  obtain ⟨hsep, hdot, hcolon⟩ := hchars _ (List.mem_map_of_mem hc)
  refine ⟨?_, ?_, ?_⟩
  · by_contra hne
    rw [Bool.not_eq_false, isSep, Bool.or_eq_true, decide_eq_true_eq, decide_eq_true_eq] at hne
    rcases hne with rfl | rfl <;> exact absurd hsep (by decide)
  · rintro rfl
    exact hdot rfl
  · rintro rfl
    exact hcolon rfl

theorem Reserved.ne_nil {d : Text} (h : Reserved d) : d ≠ [] := by
  rintro rfl
  exact absurd h.spec.1 (by decide)

/-- A path that starts with a separator is no reserved name. -/
theorem isReservedName_sep {c : ℕ} (hc : isSep c = true) (l : Text) (i : Option ℕ) :
    isReservedName (c :: l) i = false := by
  have hpart : ∀ part : Text, part.head? = some c ∨ part = [] → ¬ Reserved part := by
    rintro part hhead hres
    rcases hhead with hhead | rfl
    · have hspec := (hres.spec.2 c (List.mem_of_mem_head? hhead)).1
      exact absurd (hspec.symm.trans hc) (by decide)
    · exact hres.ne_nil rfl
  cases i with
  | some i =>
    refine Bool.eq_false_iff.mpr fun hh => hpart _ ?_ ((isReservedName_some _ i).mp hh)
    cases i with
    | zero => exact Or.inr rfl
    | succ i => exact Or.inl rfl
  | none =>
    obtain ⟨init, x, heq⟩ : ∃ init x, c :: l = init ++ [x] := by
      rcases List.eq_nil_or_concat (c :: l) with h | ⟨init, x, h⟩
      · cases h
      · exact ⟨init, x, by rw [h, List.concat_eq_append]⟩
    refine Bool.eq_false_iff.mpr fun hh => hpart init ?_ ?_
    · cases init with
      | nil => exact Or.inr rfl
      | cons d init => exact Or.inl (congrArg some (List.cons.inj heq).1.symm)
    · rw [heq] at hh
      exact (isReservedName_none init x hh)

/-! ## The first colon -/

theorem indexOfCharFrom_append {target : ℕ} {l : Text} (h : target ∉ l) (i : ℕ) (r : Text) :
    indexOfCharFrom target i (l ++ target :: r) = some (i + l.length) := by
  induction l generalizing i with
  | nil => exact if_pos rfl
  | cons c l ih =>
    obtain ⟨hc, hl⟩ := List.ne_and_not_mem_of_not_mem_cons h
    rw [List.cons_append, indexOfCharFrom, if_neg fun heq => hc heq.symm, ih hl, List.length_cons,
      Nat.add_assoc, Nat.add_comm 1]

/-- The first index of a character, read off the text before it. -/
theorem indexOfChar_append {target : ℕ} {l : Text} (h : target ∉ l) (r : Text) :
    indexOfChar target (l ++ target :: r) = some l.length := by
  rw [indexOfChar, indexOfCharFrom_append h, Nat.zero_add]

theorem indexOfCharFrom_of_notMem {target : ℕ} {l : Text} (h : target ∉ l) (i : ℕ) :
    indexOfCharFrom target i l = none := by
  induction l generalizing i with
  | nil => rfl
  | cons c l ih =>
    obtain ⟨hc, hl⟩ := List.ne_and_not_mem_of_not_mem_cons h
    rw [indexOfCharFrom, if_neg fun heq => hc heq.symm, ih hl]

/-- A text has no colon, or a first one. -/
theorem colon_cases (chars : Text) : (colon ∉ chars ∧ indexOfChar colon chars = none) ∨
    ∃ l r, chars = l ++ colon :: r ∧ colon ∉ l ∧ indexOfChar colon chars = some l.length := by
  by_cases h : colon ∈ chars
  · obtain ⟨l, r, rfl, hl⟩ := List.eq_append_cons_of_mem h
    exact Or.inr ⟨l, r, rfl, hl, indexOfChar_append hl r⟩
  · exact Or.inl ⟨h, indexOfCharFrom_of_notMem h 0⟩

/-! ## The normalized text -/

/-- The separator that is kept at the end of a text. -/
def trail (chars : Text) : Text :=
  if ((lastOf chars).map isSep).getD false then [backslash] else []

theorem isSep_of_mem_trail {chars : Text} : ∀ c ∈ trail chars, isSep c = true := by
  intro c hc
  rw [trail] at hc
  split at hc
  · rw [List.mem_singleton.mp hc]
    rfl
  · cases hc

/-- The normalized entries after the root. -/
def entriesAfter (chars : Text) (rootEnd : ℕ) (isAbsolute : Bool) : List Text :=
  normalizeSegments (!isAbsolute) (fields isSep (chars.drop rootEnd))

/-- `tail` of `win32NormalizeTail`. -/
def tailOf (chars : Text) (rootEnd : ℕ) (isAbsolute : Bool) : Text :=
  if entriesAfter chars rootEnd isAbsolute = [] then
    if isAbsolute then [] else [dot] ++ trail chars
  else [backslash].intercalate (entriesAfter chars rootEnd isAbsolute) ++ trail chars

/-- The text is marked with a leading `.\`. -/
def Marks (chars : Text) (device : Option Text) (isAbsolute : Bool) (tail : Text) : Prop :=
  (isAbsolute = false ∧ device = none ∧ colon ∈ chars ∧
    (looksLikeDrive tail ∨ colonBeforeSepOrEnd chars)) ∨
  isReservedName chars (indexOfChar colon chars) = true

instance (chars : Text) (device : Option Text) (isAbsolute : Bool) (tail : Text) :
    Decidable (Marks chars device isAbsolute tail) := inferInstanceAs (Decidable (_ ∨ _))

theorem intercalate_ne_nil {es : List Text} (h : ∀ e ∈ es, IsField isSep e) (hne : es ≠ [])
    (sep : Text) : sep.intercalate es ≠ [] := by
  obtain ⟨c, hhead, -⟩ := head_intercalate h hne sep []
  rw [List.append_nil] at hhead
  intro hnil
  rw [hnil] at hhead
  cases hhead

/-- The entries after the root are normalized. -/
theorem entriesAfter_normal (chars : Text) (rootEnd : ℕ) (isAbsolute : Bool) :
    Normal isSep (!isAbsolute) (entriesAfter chars rootEnd isAbsolute) :=
  normalizeSegments_normal fun _ he => (isField_of_mem he).1

/-- The tail as the source computes it is `tailOf`. -/
theorem tail_eq (chars : Text) (rootEnd : ℕ) (isAbsolute : Bool) {normalized tail0 : Text}
    (hnormalized : normalized = (text "\\").intercalate
      (normalizeSegments (!isAbsolute) (splitOnSeps (chars.drop rootEnd))))
    (htail : tail0 = if normalized = [] ∧ !isAbsolute then text "." else normalized) :
    (if tail0 ≠ [] ∧ ((lastOf chars).map isSep).getD false then tail0 ++ text "\\" else tail0)
      = tailOf chars rootEnd isAbsolute := by
  rw [normalizeSegments_splitOnSeps] at hnormalized
  rw [tailOf]
  have hlast : ∀ l : Text, (if ((lastOf chars).map isSep).getD false then l ++ text "\\" else l)
      = l ++ trail chars := by
    intro l
    rw [trail]
    split
    · rfl
    · rw [List.append_nil]
  by_cases hnil : entriesAfter chars rootEnd isAbsolute = []
  · rw [entriesAfter] at hnil
    rw [entriesAfter, if_pos hnil]
    rw [hnil] at hnormalized
    subst hnormalized
    cases isAbsolute with
    | true =>
      rw [htail]
      rfl
    | false =>
      have hdot : tail0 = [dot] := htail
      rw [hdot, if_congr (and_iff_right (List.cons_ne_nil _ _)) rfl rfl, hlast]
      rfl
  · have hne := intercalate_ne_nil
      ((entriesAfter_normal chars rootEnd isAbsolute).isField rfl) hnil [backslash]
    rw [if_neg hnil]
    have hjoin : normalized = [backslash].intercalate (entriesAfter chars rootEnd isAbsolute) :=
      hnormalized
    rw [← hjoin] at hne ⊢
    rw [if_neg fun hh => hne hh.1] at htail
    subst htail
    rw [if_congr (and_iff_right hne) rfl rfl, hlast]

/-- The normalized text is the device and the tail, marked with `.\` where it must be. -/
theorem win32NormalizeTail_eq (chars : Text) (device : Option Text) (rootEnd : ℕ)
    (isAbsolute : Bool) :
    win32NormalizeTail chars device rootEnd isAbsolute
      = if Marks chars device isAbsolute (tailOf chars rootEnd isAbsolute) then
          [dot, backslash] ++ device.getD [] ++ tailOf chars rootEnd isAbsolute
        else device.getD [] ++ (if isAbsolute then [backslash] else []) ++
          tailOf chars rootEnd isAbsolute := by
  rw [win32NormalizeTail.eq_def]
  dsimp only
  rw [tail_eq chars rootEnd isAbsolute rfl rfl]
  generalize tailOf chars rootEnd isAbsolute = tail
  by_cases hdrive : isAbsolute = false ∧ device = none ∧ colon ∈ chars ∧
      (looksLikeDrive tail ∨ colonBeforeSepOrEnd chars)
  · have hmarks : Marks chars device isAbsolute tail := Or.inl hdrive
    obtain ⟨habs, hdevice, hcolon⟩ := hdrive
    rw [if_pos ⟨by rw [habs]; rfl, hdevice, hcolon⟩, if_pos hmarks, hdevice]
    rfl
  · rw [if_neg fun hh => hdrive ⟨by simpa using hh.1, hh.2⟩]
    by_cases hres : isReservedName chars (indexOfChar colon chars) = true
    · have hmarks : Marks chars device isAbsolute tail := Or.inr hres
      rw [if_pos hres, if_pos hmarks]
      rfl
    · have hmarks : ¬ Marks chars device isAbsolute tail := not_or.mpr ⟨hdrive, hres⟩
      rw [if_neg hres, if_neg hmarks]
      cases device with
      | none => cases isAbsolute <;> rfl
      | some d =>
        cases isAbsolute with
        | true => rfl
        | false => simp

/-! ## Drives and device names -/

/-- The text starts with a reserved device name and a colon. -/
def NamesDevice (l : Text) : Prop := ∃ d r, l = d ++ colon :: r ∧ Reserved d

/-- A reserved name holds no colon, so the first colon is the device's. -/
theorem Reserved.colon_notMem {d : Text} (h : Reserved d) : colon ∉ d :=
  fun hmem => (h.spec.2 colon hmem).2.2 rfl

theorem isSep_of_letter {c : ℕ} (h : isDriveLetter c = true) : isSep c = false ∧ c ≠ colon := by
  constructor
  · rw [isSep, Bool.or_eq_false_iff, decide_eq_false_iff_not, decide_eq_false_iff_not]
    constructor
    · rintro rfl
      exact absurd h (by decide)
    · rintro rfl
      exact absurd h (by decide)
  · rintro rfl
    exact absurd h (by decide)

/-- The text starts with a separator. -/
def StartsSep (l : Text) : Prop := ∃ c ∈ l.head?, isSep c = true

instance (l : Text) : Decidable (StartsSep l) := by
  rw [StartsSep]
  infer_instance

/-- A letter and a colon are a drive, absolute when a separator follows. -/
theorem win32NormalizeRoot_drive {c : ℕ} (hc : isDriveLetter c = true) (rest : Text) :
    win32NormalizeRoot (c :: colon :: rest) = if StartsSep rest then
      .Win32Root (some [c, colon]) 3 true else .Win32Root (some [c, colon]) 2 false := by
  obtain ⟨hsep, hcolon⟩ := isSep_of_letter hc
  have hindex : indexOfChar colon (c :: colon :: rest) = some 1 :=
    indexOfChar_append (l := [c]) (by simpa using hcolon.symm) rest
  rw [win32NormalizeRoot.eq_def]
  dsimp only
  rw [if_neg (by rw [hsep]; decide), hindex]
  dsimp only
  rw [if_pos ⟨rfl, hc⟩]
  cases rest with
  | nil => rw [if_neg (by simp [StartsSep])]
  | cons c2 rest => simp [StartsSep]

/-- A reserved name and a colon are a device. -/
theorem win32NormalizeRoot_named {d : Text} (hd : Reserved d) (r : Text) :
    win32NormalizeRoot (d ++ colon :: r)
      = .Win32Root (some (d ++ [colon])) (d.length + 1) false := by
  have hindex := indexOfChar_append hd.colon_notMem r
  have hlen := hd.spec.1
  obtain ⟨c0, c1, d', rfl⟩ : ∃ c0 c1 d', d = c0 :: c1 :: d' := by
    rcases d with _ | ⟨c0, _ | ⟨c1, d'⟩⟩
    · exact absurd hlen (by decide)
    · exact absurd hlen (by simp)
    · exact ⟨c0, c1, d', rfl⟩
  have hsep := (hd.spec.2 c0 (List.mem_cons_self ..)).1
  have htake : (c0 :: c1 :: d' ++ colon :: r).take (c0 :: c1 :: d').length = c0 :: c1 :: d' :=
    List.take_left
  have htake' : (c0 :: c1 :: d' ++ colon :: r).take ((c0 :: c1 :: d').length + 1)
      = c0 :: c1 :: d' ++ [colon] := by
    rw [List.take_append, List.take_of_length_le (Nat.le_succ _), Nat.add_sub_cancel_left]
    rfl
  have hres : isReservedName (c0 :: c1 :: d' ++ colon :: r) (some (c0 :: c1 :: d').length) = true :=
    (isReservedName_some ..).mpr (by rwa [htake])
  rw [List.cons_append, List.cons_append] at hindex hres htake' ⊢
  rw [win32NormalizeRoot.eq_def]
  dsimp only
  rw [if_neg (by rw [hsep]; decide), hindex]
  dsimp only
  rw [if_neg fun hh => by
      have hone := hh.1
      omega, if_pos ⟨by omega, hres⟩, htake']

/-- A text is named by what comes before its first colon. -/
theorem namesDevice_iff {l r : Text} (hl : colon ∉ l) :
    NamesDevice (l ++ colon :: r) ↔ Reserved l := by
  constructor
  · rintro ⟨d, r', heq, hd⟩
    have hindex := indexOfChar_append hl r
    have hindex' := indexOfChar_append hd.colon_notMem r'
    rw [heq, hindex'] at hindex
    have htake := congrArg (List.take l.length) heq
    rw [List.take_left, ← Option.some.inj hindex, List.take_left] at htake
    rwa [htake]
  · exact fun hres => ⟨l, r, rfl, hres⟩

/-- A text that starts with none of these has no root. -/
theorem win32NormalizeRoot_plain {chars : Text} (hhead : ¬ StartsSep chars)
    (hdrive : looksLikeDrive chars = false) (hnamed : ¬ NamesDevice chars) :
    win32NormalizeRoot chars = noDevice false := by
  rcases chars with _ | ⟨c0, _ | ⟨c1, afterTwo⟩⟩
  · rfl
  · rfl
  have hsep : ¬ isSep c0 = true := fun hc => hhead ⟨c0, rfl, hc⟩
  rw [win32NormalizeRoot.eq_def]
  dsimp only
  rw [if_neg hsep]
  rcases colon_cases (c0 :: c1 :: afterTwo) with ⟨-, hindex⟩ | ⟨l, r, heq, hl, hindex⟩
  · rw [hindex]
  · rw [hindex]
    dsimp only
    rw [if_neg, if_neg]
    · rintro ⟨-, hres⟩
      rw [isReservedName_some, heq, List.take_left] at hres
      exact hnamed (heq ▸ (namesDevice_iff hl).mpr hres)
    · rintro ⟨hone, hletter⟩
      obtain ⟨d, rfl⟩ := List.length_eq_one_iff.mp hone
      obtain ⟨rfl, htail⟩ := List.cons.inj heq
      obtain ⟨rfl, -⟩ := List.cons.inj htail
      rw [looksLikeDrive, hletter] at hdrive
      exact absurd hdrive (by decide)

/-- The same for the second reader of roots: no separator and no drive, no root. -/
theorem win32ParseRootEnd_plain {chars : Text} (hhead : ¬ StartsSep chars)
    (hdrive : looksLikeDrive chars = false) : win32ParseRootEnd chars = 0 := by
  rcases chars with _ | ⟨c0, _ | ⟨c1, afterTwo⟩⟩
  · rfl
  · exact if_neg fun hc => hhead ⟨c0, rfl, hc⟩
  · rw [win32ParseRootEnd.eq_def]
    dsimp only
    rw [if_neg fun hc => hhead ⟨c0, rfl, hc⟩, if_neg]
    rintro ⟨rfl, hletter⟩
    rw [looksLikeDrive, hletter] at hdrive
    exact absurd hdrive (by decide)

/-- Its root of a drive is two characters, or three with the separator. -/
theorem win32ParseRootEnd_drive {c : ℕ} (hc : isDriveLetter c = true) (rest : Text) :
    win32ParseRootEnd (c :: colon :: rest) = if StartsSep rest then 3 else 2 := by
  obtain ⟨hsep, -⟩ := isSep_of_letter hc
  rw [win32ParseRootEnd.eq_def]
  dsimp only
  rw [if_neg (by rw [hsep]; decide), if_pos ⟨rfl, hc⟩]
  cases rest with
  | nil => rw [if_neg (by simp [StartsSep])]
  | cons c2 rest => simp [StartsSep]

/-- Its root of one separator is that separator. -/
theorem win32ParseRootEnd_sep {c : ℕ} (hc : isSep c = true) {rest : Text}
    (hrest : ¬ StartsSep rest) : win32ParseRootEnd (c :: rest) = 1 := by
  cases rest with
  | nil => exact if_pos hc
  | cons c1 rest =>
    rw [win32ParseRootEnd.eq_def]
    dsimp only
    rw [if_pos hc, if_neg fun hh => hrest ⟨c1, rfl, hh⟩]

/-! ## Shares and device paths -/

/-- The start of a share: two entries and what follows them. -/
structure Share (afterTwo first seps second rest : Text) : Prop where
  eq : afterTwo = first ++ (seps ++ (second ++ rest))
  first : IsField isSep first
  seps : seps ≠ [] ∧ ∀ c ∈ seps, isSep c = true
  second : IsField isSep second
  rest : rest ≠ [] → StartsSep rest

section

variable {afterTwo first seps second rest : Text}

theorem Share.span_first (h : Share afterTwo first seps second rest) :
    span isNotSep afterTwo = (first, seps ++ (second ++ rest)) := by
  rw [h.eq]
  refine span_append (fun c hc => (isNotSep_iff c).mpr (h.first.2 c hc)) fun c hc => ?_
  obtain ⟨d, l, hseps⟩ := List.exists_cons_of_ne_nil h.seps.1
  rw [hseps] at hc
  obtain rfl := Option.some.inj hc
  have hd := h.seps.2 d (hseps ▸ List.mem_cons_self ..)
  rw [isNotSep, hd]
  rfl

theorem Share.span_seps (h : Share afterTwo first seps second rest) :
    span isSep (seps ++ (second ++ rest)) = (seps, second ++ rest) := by
  refine span_append h.seps.2 fun c hc => ?_
  obtain ⟨d, l, hsecond⟩ := List.exists_cons_of_ne_nil h.second.1
  rw [hsecond] at hc
  obtain rfl := Option.some.inj hc
  exact h.second.2 d (hsecond ▸ List.mem_cons_self ..)

theorem Share.span_second (h : Share afterTwo first seps second rest) :
    span isNotSep (second ++ rest) = (second, rest) := by
  refine span_append (fun c hc => (isNotSep_iff c).mpr (h.second.2 c hc)) fun c hc => ?_
  obtain ⟨d, hd, hsep⟩ := h.rest (List.ne_nil_of_mem (List.mem_of_mem_head? hc))
  obtain rfl := Option.some.inj (Option.mem_def.mp hc ▸ Option.mem_def.mp hd)
  rw [isNotSep, hsep]
  rfl

/-- No part of a share is missing. -/
theorem Share.not_short (h : Share afterTwo first seps second rest) :
    ¬ (first = [] ∨ seps ++ (second ++ rest) = [] ∨ second ++ rest = []) := by
  rintro (hnil | hnil | hnil)
  · exact h.first.1 hnil
  · exact h.seps.1 (List.append_eq_nil_iff.mp hnil).1
  · exact h.second.1 (List.append_eq_nil_iff.mp hnil).1

/-- The root of a share ends after the separator that follows it. -/
theorem Share.win32ParseRootEnd (h : Share afterTwo first seps second rest) {c0 c1 : ℕ}
    (h0 : isSep c0 = true) (h1 : isSep c1 = true) :
    win32ParseRootEnd (c0 :: c1 :: afterTwo) = if rest = [] then
      2 + first.length + seps.length + second.length
      else 2 + first.length + seps.length + second.length + 1 := by
  rw [win32ParseRootEnd.eq_def]
  dsimp only
  rw [if_pos h0, if_pos h1, h.span_first]
  dsimp only
  rw [h.span_seps]
  dsimp only
  rw [h.span_second]
  dsimp only
  rw [if_neg h.not_short]

/-- Two separators and a share are a UNC root. -/
theorem Share.win32NormalizeRoot (h : Share afterTwo first seps second rest) {c0 c1 : ℕ}
    (h0 : isSep c0 = true) (h1 : isSep c1 = true)
    (hfirst : ¬ (first = SystemPath.text "." ∨ first = SystemPath.text "?")) :
    win32NormalizeRoot (c0 :: c1 :: afterTwo) = if rest = [] then
      .UncRootOnly (SystemPath.text "\\\\" ++ first ++ SystemPath.text "\\" ++ second ++
        SystemPath.text "\\")
      else .Win32Root (some (SystemPath.text "\\\\" ++ first ++ SystemPath.text "\\" ++ second))
        (2 + first.length + seps.length + second.length) true := by
  rw [SystemPath.win32NormalizeRoot.eq_def]
  dsimp only
  rw [if_pos h0, if_pos h1, win32NormalizeUnc, h.span_first]
  dsimp only
  rw [h.span_seps]
  dsimp only
  rw [h.span_second]
  dsimp only
  rw [if_neg h.not_short, if_neg hfirst]

/-- What follows a first entry and a separator, up to the end of a second one. -/
theorem exists_second {l : Text} (hl : ∃ c ∈ l, isSep c = false) : ∃ seps second rest,
    l = seps ++ (second ++ rest) ∧ (∀ c ∈ seps, isSep c = true) ∧ IsField isSep second ∧
      (rest ≠ [] → StartsSep rest) := by
  obtain ⟨seps, after, -, rfl, hsep, hstart⟩ := span_eq isSep l
  obtain ⟨second, rest, -, rfl, hnot, hend⟩ := span_eq isNotSep after
  have hsecond : second ≠ [] := by
    rintro rfl
    cases rest with
    | nil =>
      obtain ⟨c, hc, hfalse⟩ := hl
      rw [List.append_nil, List.append_nil] at hc
      exact absurd ((hsep c hc).symm.trans hfalse) (by decide)
    | cons c rest =>
      have hfalse := hend c rfl
      rw [isNotSep, hstart c rfl] at hfalse
      exact absurd hfalse (by decide)
  refine ⟨seps, second, rest, rfl, hsep, ⟨hsecond, fun c hc => (isNotSep_iff c).mp (hnot c hc)⟩,
    fun hne => ?_⟩
  obtain ⟨c, rest, rfl⟩ := List.exists_cons_of_ne_nil hne
  have hfalse := hend c rfl
  rw [isNotSep, Bool.not_eq_false'] at hfalse
  exact ⟨c, rfl, hfalse⟩

/-- An entry, a separator and any other character but separators make a share. -/
theorem exists_share {first l : Text} {c : ℕ} (hfirst : IsField isSep first)
    (hc : isSep c = true) (hl : ∃ c ∈ l, isSep c = false) :
    ∃ seps second rest, l = seps ++ (second ++ rest) ∧
      Share (first ++ c :: l) first (c :: seps) second rest := by
  obtain ⟨seps, second, rest, rfl, hseps, hsecond, hrest⟩ := exists_second hl
  refine ⟨seps, second, rest, rfl, ⟨rfl, hfirst, ⟨List.cons_ne_nil _ _, fun d hd => ?_⟩, hsecond,
    hrest⟩⟩
  rcases List.mem_cons.mp hd with rfl | hd
  · exact hc
  · exact hseps d hd

theorem isField_single {q : ℕ} (hq : q = dot ∨ q = 0x3F) : IsField isSep [q] := by
  refine ⟨List.cons_ne_nil _ _, fun c hc => ?_⟩
  rw [List.mem_singleton.mp hc]
  rcases hq with rfl | rfl <;> rfl

/-- The start of a device path: `.` or `?` between separators, and what follows. -/
theorem win32NormalizeRoot_device {c0 c1 q c3 : ℕ} {l : Text} (h0 : isSep c0 = true)
    (h1 : isSep c1 = true) (hq : q = dot ∨ q = 0x3F) (h3 : isSep c3 = true)
    (hl : ∃ c ∈ l, isSep c = false) :
    (∀ d r, l = d ++ colon :: r → Reserved d →
      win32NormalizeRoot (c0 :: c1 :: q :: c3 :: l)
        = .Win32Root (some (text "\\\\?\\" ++ (d ++ [colon]))) (4 + (d.length + 1)) true) ∧
    (¬ NamesDevice l → win32NormalizeRoot (c0 :: c1 :: q :: c3 :: l)
      = .Win32Root (some (text "\\\\" ++ [q])) 4 true) := by
  obtain ⟨seps, second, rest, -, hshare⟩ := exists_share (isField_single hq) h3 hl
  have hfirst : [q] = text "." ∨ [q] = text "?" := by
    rcases hq with rfl | rfl
    · exact Or.inl rfl
    · exact Or.inr rfl
  -- the code reads the path as a share named `.` or `?`, then asks whether it names a device
  have hroot : ∀ device, possibleDevice (c0 :: c1 :: q :: c3 :: l) = device →
      win32NormalizeRoot (c0 :: c1 :: q :: c3 :: l)
        = if device ≠ [] ∧ isReservedName device (some (device.length - 1)) then
            .Win32Root (some (text "\\\\?\\" ++ device)) (4 + device.length) true
          else .Win32Root (some (text "\\\\" ++ [q])) 4 true := by
    rintro device rfl
    have hspan := hshare.span_first
    rw [List.singleton_append] at hspan
    rw [win32NormalizeRoot.eq_def]
    dsimp only
    rw [if_pos h0, if_pos h1, win32NormalizeUnc, hspan]
    dsimp only
    rw [hshare.span_seps]
    dsimp only
    rw [hshare.span_second]
    dsimp only
    rw [if_neg hshare.not_short, if_pos hfirst]
  -- the first colon of the path is the first one after the four characters
  have hstart : colon ∉ [c0, c1, q, c3] := by
    have hne : ∀ c, isSep c = true → colon ≠ c := by
      rintro c hc rfl
      exact absurd hc (by decide)
    simp only [List.mem_cons, List.not_mem_nil, or_false, not_or]
    refine ⟨hne c0 h0, hne c1 h1, ?_, hne c3 h3⟩
    rcases hq with rfl | rfl <;> decide
  have hdevice : ∀ d r, l = d ++ colon :: r → colon ∉ d →
      possibleDevice (c0 :: c1 :: q :: c3 :: l) = d ++ [colon] := by
    rintro d r rfl hd
    have hindex : indexOfChar colon ([c0, c1, q, c3] ++ d ++ colon :: r)
        = some ([c0, c1, q, c3] ++ d).length :=
      indexOfChar_append (by simpa only [List.mem_append, not_or] using ⟨hstart, hd⟩) r
    have heq : [c0, c1, q, c3] ++ d ++ colon :: r = c0 :: c1 :: q :: c3 :: (d ++ colon :: r) := rfl
    rw [heq] at hindex
    rw [possibleDevice, hindex]
    dsimp only
    rw [← heq, List.take_append, List.take_of_length_le (Nat.le_succ _), Nat.add_sub_cancel_left]
    rfl
  constructor
  · intro d r heq hd
    have hres : isReservedName (d ++ [colon]) (some ((d ++ [colon]).length - 1)) = true := by
      rw [isReservedName_some, List.length_append, List.length_singleton, Nat.add_sub_cancel,
        List.take_left]
      exact hd
    rw [hroot _ (hdevice d r heq hd.colon_notMem), if_pos ⟨by simp, hres⟩, List.length_append]
    rfl
  · intro hnot
    rcases colon_cases l with ⟨hl, -⟩ | ⟨d, r, rfl, hd, -⟩
    · have hindex : indexOfChar colon (c0 :: c1 :: q :: c3 :: l) = none := by
        refine indexOfCharFrom_of_notMem ?_ 0
        have happend : colon ∉ [c0, c1, q, c3] ++ l := by
          simpa only [List.mem_append, not_or] using ⟨hstart, hl⟩
        exact happend
      rw [hroot [] (by rw [possibleDevice, hindex]), if_neg fun hh => hh.1 rfl]
    · rw [hroot _ (hdevice d r rfl hd), if_neg]
      rintro ⟨-, hres⟩
      rw [isReservedName_some, List.length_append, List.length_singleton, Nat.add_sub_cancel,
        List.take_left] at hres
      exact hnot ((namesDevice_iff hd).mpr hres)

/-- Two separators start a share or a device path, or are the root. -/
theorem unc_cases (afterTwo : Text) :
    (∃ first seps second rest, Share afterTwo first seps second rest) ∨
      ∀ c0 c1, isSep c0 = true → isSep c1 = true →
        win32NormalizeRoot (c0 :: c1 :: afterTwo) = noDevice true := by
  obtain ⟨first, afterFirst, hfirst, rfl, hnot, hstart⟩ := span_eq isNotSep afterTwo
  obtain ⟨seps, afterSeps, hseps, rfl, hsep, hstart'⟩ := span_eq isSep afterFirst
  obtain ⟨second, rest, hsecond, rfl, hnot', hstart''⟩ := span_eq isNotSep afterSeps
  by_cases hshort : first = [] ∨ seps ++ (second ++ rest) = [] ∨ second ++ rest = []
  · refine Or.inr fun c0 c1 h0 h1 => ?_
    rw [win32NormalizeRoot.eq_def]
    dsimp only
    rw [if_pos h0, if_pos h1, win32NormalizeUnc, hfirst]
    dsimp only
    rw [hseps]
    dsimp only
    rw [hsecond]
    dsimp only
    rw [if_pos hshort]
  · obtain ⟨hne, hne', hne''⟩ := by simpa only [not_or] using hshort
    have hfield : IsField isSep first := ⟨hne, fun c hc => (isNotSep_iff c).mp (hnot c hc)⟩
    obtain ⟨c, l, heq⟩ := List.exists_cons_of_ne_nil hne'
    have hc : isSep c = true := by
      have hfalse := hstart c (by rw [heq]; rfl)
      rwa [isNotSep, Bool.not_eq_false'] at hfalse
    obtain ⟨d, l', heq'⟩ := List.exists_cons_of_ne_nil hne''
    have hd : isSep d = false := hstart' d (by rw [heq']; rfl)
    have hmem : d ∈ l := by
      have hcons : d ∈ c :: l := by
        rw [← heq, heq']
        exact List.mem_append_right seps (List.mem_cons_self ..)
      rcases List.mem_cons.mp hcons with rfl | hmem
      · exact absurd (hc.symm.trans hd) (by decide)
      · exact hmem
    obtain ⟨seps', second', rest', -, hshare⟩ := exists_share hfield hc ⟨d, hmem, hd⟩
    rw [heq]
    exact Or.inl ⟨_, _, _, _, hshare⟩

end

end SystemPath

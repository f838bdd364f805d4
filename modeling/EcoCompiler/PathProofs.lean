import EcoCompiler.PathRoots

/-! # Windows paths, printed and read again

    * `reads_plain`, `reads_named`, `reads_share`, … — the path that is read after each root;
    * `body` — the entries after a root, as text. -/

namespace SystemPath

open Fields

variable {E : List Text} {tr : Text}

/-- No entry at the end has a dot at its end. -/
def LastOk (es : List Text) : Prop := ∀ e ∈ es.getLast?, e.getLast? ≠ some dot

/-! ## Entries after the root -/

/-- A step pushes what it is given or `..`, and nothing else. -/
theorem mem_normalizeStep {above : Bool} {stack : List Text} {x m : Text}
    (h : m ∈ normalizeStep above stack x) : m ∈ stack ∨ m = [dot, dot] ∨ m = x := by
  rw [normalizeStep.eq_def] at h
  split at h
  · exact Or.inl h
  split at h
  · cases stack with
    | nil =>
      dsimp only at h
      split at h
      · exact Or.inr (Or.inl (List.mem_singleton.mp h))
      · cases h
    | cons top rest =>
      dsimp only at h
      split at h
      · rcases List.mem_cons.mp h with rfl | h
        · exact Or.inr (Or.inl rfl)
        · exact Or.inl h
      · exact Or.inl (List.mem_cons_of_mem top h)
  · rcases List.mem_cons.mp h with rfl | h
    · exact Or.inr (Or.inr rfl)
    · exact Or.inl h

/-- Normalizing adds nothing but `..`. -/
theorem mem_normalizeSegments {above : Bool} {segments : List Text} {e : Text}
    (h : e ∈ normalizeSegments above segments) : e = [dot, dot] ∨ e ∈ segments := by
  have hfold : ∀ l stack : List Text, ∀ m ∈ l.foldl (normalizeStep above) stack,
      m ∈ stack ∨ m = [dot, dot] ∨ m ∈ l := by
    intro l
    induction l with
    | nil => exact fun stack m hm => Or.inl hm
    | cons x l ih =>
      intro stack m hm
      rcases ih _ m hm with hm | hm | hm
      · rcases mem_normalizeStep hm with hm | hm | rfl
        · exact Or.inl hm
        · exact Or.inr (Or.inl hm)
        · exact Or.inr (Or.inr (List.mem_cons_self ..))
      · exact Or.inr (Or.inl hm)
      · exact Or.inr (Or.inr (List.mem_cons_of_mem x hm))
  rcases hfold segments [] e (List.mem_reverse.mp h) with hm | hm
  · cases hm
  · exact hm

/-- After every root there is nothing, or a name that does not end in a dot. -/
theorem normalizeSegments_lastOk {p : ℕ → Bool} (above : Bool) (s : Text) {r : Text}
    (hs : ¬ EndsInDot p (s ++ r)) : LastOk (normalizeSegments above (fields p r)) ∧
      (fields p r ≠ [] → normalizeSegments above (fields p r) ≠ []) := by
  have hr : ¬ EndsInDot p r := by
    rintro ⟨e, he, hend⟩
    obtain ⟨f, hf, hsuffix⟩ := getLast_fields_append s he
    obtain ⟨l, rfl⟩ := hsuffix
    refine hs ⟨l ++ e, hf, ?_⟩
    rw [List.getLast?_append, hend]
    rfl
  rcases eq_or_ne (fields p r) [] with hnil | hne
  · rw [hnil]
    exact ⟨fun e he => absurd he (by simp [normalizeSegments]), fun hh => absurd rfl hh⟩
  · obtain ⟨init, e, heq⟩ := exists_last hne
    obtain ⟨he, hend⟩ := isName_of_last hr heq
    obtain ⟨init', hnormal⟩ := normalizeSegments_last above he init
    rw [heq, hnormal]
    refine ⟨fun m hm => ?_, fun _ => by simp⟩
    rw [List.getLast?_concat] at hm
    obtain rfl := Option.some.inj hm
    exact hend

/-- A character of a joined text is one of the separator's or of an entry's. -/
theorem mem_intercalate {sep : Text} {es : List Text} {c : ℕ} (h : c ∈ sep.intercalate es) :
    c ∈ sep ∨ ∃ e ∈ es, c ∈ e := by
  induction es with
  | nil => cases h
  | cons e es ih =>
    cases es with
    | nil => exact Or.inr ⟨e, List.mem_cons_self .., by simpa using h⟩
    | cons e' es =>
      rw [List.intercalate_cons_cons, List.append_assoc] at h
      rcases List.mem_append.mp h with h | h
      · exact Or.inr ⟨e, List.mem_cons_self .., h⟩
      · rcases List.mem_append.mp h with h | h
        · exact Or.inl h
        · rcases ih h with h | ⟨m, hm, hc⟩
          · exact Or.inl h
          · exact Or.inr ⟨m, List.mem_cons_of_mem e hm, hc⟩

/-! ## Reading the normalized text -/

/-- The text of the entries after a root. -/
def body (E : List Text) (tr : Text) : Text :=
  if E = [] then [] else [backslash].intercalate E ++ tr

/-- A root, entries and trailing separators are read as that root and those entries. -/
theorem reads_parse (root : Text) (hroot : win32ParseRootEnd (root ++ body E tr) = root.length)
    (htr : ∀ c ∈ tr, isSep c = true) (hE : ∀ e ∈ E, IsField isSep e) (hlast : LastOk E) :
    Reads (win32Parse (root ++ body E tr)) root E := by
  rw [body] at hroot ⊢
  rcases eq_or_ne E [] with rfl | hne
  · rw [if_pos rfl] at hroot ⊢
    rw [win32Parse_root root [] hroot (by simp)]
    exact ⟨rfl, rfl⟩
  · obtain ⟨init, e, rfl⟩ := exists_last hne
    have he := hE e (by simp)
    have hend := hlast e (by rw [List.getLast?_concat]; rfl)
    rw [if_neg hne] at hroot ⊢
    rw [win32Parse_eq hroot htr (fun m hm => hE m (by simp [hm])) he]
    exact ⟨rfl, parts_fromParts root init he.1 hend⟩

/-- The text starts with no separator when it starts with an entry. -/
theorem not_startsSep (hE : ∀ e ∈ E, IsField isSep e) (r : Text) (hne : E ≠ []) :
    ¬ StartsSep ([backslash].intercalate E ++ r) := by
  obtain ⟨c, hhead, hc⟩ := head_intercalate hE hne [backslash] r
  rintro ⟨d, hd, hsep⟩
  rw [hhead] at hd
  obtain rfl := Option.some.inj hd
  exact absurd (hsep.symm.trans hc) (by decide)

/-- The body of a path starts with no separator. -/
theorem not_startsSep_body (hE : ∀ e ∈ E, IsField isSep e) : ¬ StartsSep (body E tr) := by
  rw [body]
  split
  · simp [StartsSep]
  · next hne => exact not_startsSep hE tr hne

/-- The tail is the body of the entries and the trail. -/
theorem tailOf_eq {chars : Text} {rootEnd : ℕ} {isAbsolute : Bool}
    (hE : entriesAfter chars rootEnd isAbsolute = E) (h : isAbsolute = true ∨ E ≠ []) :
    tailOf chars rootEnd isAbsolute = body E (trail chars) := by
  rw [tailOf, hE, body]
  split
  · next hnil =>
    rcases h with habs | hne
    · rw [if_pos habs]
    · exact absurd hnil hne
  · rfl

/-! ## The path after each root -/

section

variable {s : Text}

/-- Normalizing a text whose root is known. -/
theorem win32Normalize_of_root {device : Option Text} {rootEnd : ℕ} {isAbsolute : Bool}
    (hlen : 2 ≤ s.length) (hroot : win32NormalizeRoot s = .Win32Root device rootEnd isAbsolute) :
    win32Normalize s = if Marks s device isAbsolute (tailOf s rootEnd isAbsolute) then
        [dot, backslash] ++ device.getD [] ++ tailOf s rootEnd isAbsolute
      else device.getD [] ++ (if isAbsolute then [backslash] else []) ++
        tailOf s rootEnd isAbsolute := by
  rw [← win32NormalizeTail_eq]
  rcases s with _ | ⟨c0, _ | ⟨c1, l⟩⟩
  · exact absurd hlen (by decide)
  · exact absurd hlen (by simp)
  · rw [win32Normalize.eq_def]
    dsimp only
    rw [hroot]

/-- A path with a device and no reserved name before its first colon is not marked. -/
theorem not_marks {device : Option Text} {isAbsolute : Bool} {tail : Text}
    (hdevice : isAbsolute = true ∨ device ≠ none)
    (hres : isReservedName s (indexOfChar colon s) = false) : ¬ Marks s device isAbsolute tail := by
  rintro (⟨habs, hnone, -⟩ | hreserved)
  · rcases hdevice with h | h
    · exact absurd (h.symm.trans habs) (by decide)
    · exact h hnone
  · exact absurd (hreserved.symm.trans hres) (by decide)

/-- What looks like a drive does so with more behind it. -/
theorem looksLikeDrive_append {l r : Text} (h : looksLikeDrive l = true) :
    looksLikeDrive (l ++ r) = true := by
  rcases l with _ | ⟨c0, _ | ⟨c1, l⟩⟩
  · cases h
  · cases h
  · exact h

theorem colon_mem_of_looksLikeDrive {l : Text} (h : looksLikeDrive l = true) : colon ∈ l := by
  rcases l with _ | ⟨c0, _ | ⟨c1, l⟩⟩
  · cases h
  · cases h
  · rw [looksLikeDrive, Bool.and_eq_true, decide_eq_true_eq] at h
    simp [h.1]

/-- A colon of the normalized text is one of the text. -/
theorem colon_of_entries {rootEnd : ℕ} {isAbsolute : Bool}
    (hE : entriesAfter s rootEnd isAbsolute = E)
    (h : colon ∈ [backslash].intercalate E ++ trail s) : colon ∈ s := by
  rcases List.mem_append.mp h with h | h
  · rcases mem_intercalate h with h | ⟨e, he, hc⟩
    · exact absurd h (by decide)
    · rcases mem_normalizeSegments (hE ▸ he : e ∈ entriesAfter s rootEnd isAbsolute) with rfl | he
      · exact absurd hc (by decide)
      · exact List.mem_of_mem_drop ((isField_of_mem he).2 colon hc)
  · exact absurd (isSep_of_mem_trail colon h) (by decide)

/-- What is left without a marker has nothing at its start that Windows reads as a drive, and no
    colon at the end of an entry. -/
theorem looksLikeDrive_of_not_marks (hE : entriesAfter s 0 false = E) (hne : E ≠ [])
    (hmarks : ¬ Marks s none false (tailOf s 0 false)) : looksLikeDrive (body E (trail s)) = false ∧
      (colon ∈ s → colonBeforeSepOrEnd s = false) := by
  obtain ⟨hplain, -⟩ := not_or.mp hmarks
  rw [tailOf_eq hE (Or.inr hne)] at hplain
  have hcolon : colon ∈ s → looksLikeDrive (body E (trail s)) = false ∧
      colonBeforeSepOrEnd s = false := by
    intro hmem
    have hnot := not_or.mp fun hh => hplain ⟨rfl, rfl, hmem, hh⟩
    exact ⟨Bool.eq_false_iff.mpr hnot.1, Bool.eq_false_iff.mpr hnot.2⟩
  refine ⟨?_, fun hmem => (hcolon hmem).2⟩
  by_cases hmem : colon ∈ s
  · exact (hcolon hmem).1
  · refine Bool.eq_false_iff.mpr fun hh => hmem ?_
    have hbody : body E (trail s) = [backslash].intercalate E ++ trail s := if_neg hne
    exact colon_of_entries hE (hbody ▸ colon_mem_of_looksLikeDrive hh)

/-- A relative path with no device, marked or not. -/
theorem reads_plain (hlen : 2 ≤ s.length) (hsep : ¬ StartsSep s)
    (hdrive : looksLikeDrive s = false) (hnamed : ¬ NamesDevice s)
    (hE : entriesAfter s 0 false = E) (hne : E ≠ []) (hlast : LastOk E) :
    Reads (fromWin32String s) []
      (if Marks s none false (tailOf s 0 false) then [dot] :: E else E) := by
  have hfields : ∀ e ∈ E, IsField isSep e := hE ▸ (entriesAfter_normal s 0 false).isField rfl
  have htail := tailOf_eq hE (Or.inr hne)
  have hbody : body E (trail s) = [backslash].intercalate E ++ trail s := if_neg hne
  rw [fromWin32String, win32Normalize_of_root hlen (win32NormalizeRoot_plain hsep hdrive hnamed)]
  split
  · have hmarked : [dot, backslash] ++ (none : Option Text).getD [] ++ tailOf s 0 false
        = [] ++ body ([dot] :: E) (trail s) := by
      obtain ⟨e, es, rfl⟩ := List.exists_cons_of_ne_nil hne
      rw [htail, hbody, body, if_neg (List.cons_ne_nil _ _), List.intercalate_cons_cons]
      rfl
    rw [hmarked]
    refine reads_parse _ ?_ isSep_of_mem_trail ?_ ?_
    · rw [← hmarked]
      exact win32ParseRootEnd_plain (by simp [StartsSep, isSep]) rfl
    · intro e he
      rcases List.mem_cons.mp he with rfl | he
      · exact ⟨List.cons_ne_nil _ _, by simp [isSep]⟩
      · exact hfields e he
    · intro e he
      obtain ⟨m, ms, rfl⟩ := List.exists_cons_of_ne_nil hne
      rw [List.getLast?_cons_cons] at he
      exact hlast e he
  · next hmarks =>
    have hlooks := (looksLikeDrive_of_not_marks hE hne hmarks).1
    rw [htail]
    exact reads_parse [] (win32ParseRootEnd_plain (not_startsSep_body hfields) hlooks)
      isSep_of_mem_trail hfields hlast

/-- A text in front of the first entry. -/
def glue (l : Text) : List Text → List Text
  | [] => [l]
  | e :: es => (l ++ e) :: es

/-- A device glued to the first entry stands at the front of the text. -/
theorem intercalate_glue (l : Text) (es : List Text) (sep : Text) :
    sep.intercalate (glue l es) = l ++ sep.intercalate es := by
  rcases es with _ | ⟨e, _ | ⟨e', es⟩⟩
  · simp [glue]
  · simp [glue]
  · simp [glue, List.intercalate_cons_cons]

theorem reserved_colon {d : Text} (hd : Reserved d) : IsField isSep (d ++ [colon]) := by
  refine ⟨by simp, fun c hc => ?_⟩
  rcases List.mem_append.mp hc with hc | hc
  · exact (hd.spec.2 c hc).1
  · rw [List.mem_singleton.mp hc]
    rfl

/-- Glued entries are entries. -/
theorem isField_glue {l : Text} (hl : IsField isSep l) {es : List Text}
    (hes : ∀ e ∈ es, IsField isSep e) : ∀ e ∈ glue l es, IsField isSep e := by
  intro e he
  cases es with
  | nil => rwa [List.mem_singleton.mp he]
  | cons m es =>
    rcases List.mem_cons.mp he with rfl | he
    · refine ⟨by simp [hl.1], fun c hc => ?_⟩
      exact (List.mem_append.mp hc).elim (hl.2 c) ((hes m (List.mem_cons_self ..)).2 c)
    · exact hes e (List.mem_cons_of_mem m he)

/-- Glueing leaves the last entry in order. -/
theorem lastOk_glue {l : Text} (hl : l.getLast? ≠ some dot) {es : List Text}
    (hes : ∀ e ∈ es, IsField isSep e) (hlast : LastOk es) : LastOk (glue l es) := by
  rcases es with _ | ⟨e, _ | ⟨e', es⟩⟩
  · intro m hm
    obtain rfl := Option.some.inj hm
    exact hl
  · intro m hm
    obtain rfl : l ++ e = m := Option.some.inj hm
    rw [List.getLast?_append_of_ne_nil _ (hes e (List.mem_cons_self ..)).1]
    exact hlast e rfl
  · intro m hm
    refine hlast m ?_
    rw [List.getLast?_cons_cons]
    rwa [glue, List.getLast?_cons_cons] at hm

theorem lastOk_cons {e : Text} {es : List Text} (hne : es ≠ []) :
    LastOk (e :: es) ↔ LastOk es := by
  obtain ⟨m, ms, rfl⟩ := List.exists_cons_of_ne_nil hne
  rw [LastOk, LastOk, List.getLast?_cons_cons]

/-- A reserved name before a colon is always marked. -/
theorem marks_named {d r tail : Text} {device : Option Text} {isAbsolute : Bool} (hd : Reserved d) :
    Marks (d ++ colon :: r) device isAbsolute tail := by
  refine Or.inr ?_
  rw [indexOfChar_append hd.colon_notMem, isReservedName_some, List.take_left]
  exact hd

/-- A path after a reserved device name is always marked. -/
theorem reads_named {d r : Text} (hd : Reserved d)
    (hE : normalizeSegments true (fields isSep r) = E) (hlast : LastOk E) :
    Reads (fromWin32String (d ++ colon :: r)) [] ([dot] :: glue (d ++ [colon]) E) := by
  have hlen : 2 ≤ (d ++ colon :: r).length := by
    have hthree := hd.spec.1
    rw [List.length_append]
    omega
  have hdrop : (d ++ colon :: r).drop (d.length + 1) = r := by
    rw [← List.drop_drop, List.drop_left]
    rfl
  have hentries : entriesAfter (d ++ colon :: r) (d.length + 1) false = E := by
    rw [entriesAfter, hdrop]
    exact hE
  have hfields : ∀ e ∈ E, IsField isSep e :=
    hentries ▸ (entriesAfter_normal _ _ _).isField rfl
  have hcolon := reserved_colon hd
  have hdot : IsField isSep [dot] := ⟨List.cons_ne_nil _ _, by simp [isSep]⟩
  rw [fromWin32String, win32Normalize_of_root hlen (win32NormalizeRoot_named hd r),
    if_pos (marks_named hd)]
  rcases eq_or_ne E [] with rfl | hne
  -- the dot that stands for no entries is dropped from the last one
  · have hlong : IsField isSep (d ++ [colon] ++ [dot]) := by
      refine ⟨by simp, fun c hc => ?_⟩
      exact (List.mem_append.mp hc).elim (hcolon.2 c) (hdot.2 c)
    have hnormal : [dot, backslash] ++ (some (d ++ [colon])).getD [] ++
        tailOf (d ++ colon :: r) (d.length + 1) false
        = [] ++ ([backslash].intercalate ([[dot]] ++ [d ++ [colon] ++ [dot]]) ++
          trail (d ++ colon :: r)) := by
      rw [tailOf, if_pos hentries, if_neg (by decide)]
      simp [List.intercalate_cons_cons]
    rw [hnormal, win32Parse_eq ?_ isSep_of_mem_trail ?_ hlong]
    · have hne : d ++ [colon] ≠ [dot] := by
        intro heq
        have hlast := congrArg List.getLast? heq
        rw [List.getLast?_concat] at hlast
        exact absurd (Option.some.inj hlast) (by decide)
      exact ⟨rfl, parts_fromParts_dot [] [[dot]] hcolon.1 hne⟩
    · rw [← hnormal]
      exact win32ParseRootEnd_plain (by simp [StartsSep, isSep]) rfl
    · intro m hm
      rwa [List.mem_singleton.mp hm]
  · have hglue := isField_glue hcolon hfields
    have hnormal : [dot, backslash] ++ (some (d ++ [colon])).getD [] ++
        tailOf (d ++ colon :: r) (d.length + 1) false
        = [] ++ body ([dot] :: glue (d ++ [colon]) E) (trail (d ++ colon :: r)) := by
      obtain ⟨e, es, rfl⟩ := List.exists_cons_of_ne_nil hne
      rw [tailOf_eq hentries (Or.inr hne), body, if_neg hne, body, if_neg (List.cons_ne_nil _ _),
        glue, List.intercalate_cons_cons, ← glue, intercalate_glue]
      simp
    rw [hnormal]
    refine reads_parse _ ?_ isSep_of_mem_trail ?_ ?_
    · rw [← hnormal]
      exact win32ParseRootEnd_plain (by simp [StartsSep, isSep]) rfl
    · intro e he
      rcases List.mem_cons.mp he with rfl | he
      · exact hdot
      · exact hglue e he
    · rw [lastOk_cons]
      · exact lastOk_glue (by simp) hfields hlast
      · obtain ⟨e, es, rfl⟩ := List.exists_cons_of_ne_nil hne
        exact List.cons_ne_nil _ _

/-- A drive is no reserved name. -/
theorem drive_not_reserved {c : ℕ} (hc : isDriveLetter c = true) (r : Text) :
    isReservedName (c :: colon :: r) (indexOfChar colon (c :: colon :: r)) = false := by
  have hcolon := (isSep_of_letter hc).2
  have hindex : indexOfChar colon (c :: colon :: r) = some 1 :=
    indexOfChar_append (l := [c]) (by simpa using hcolon.symm) r
  rw [hindex]
  refine Bool.eq_false_iff.mpr fun hh => ?_
  have hlen := ((isReservedName_some _ _).mp hh).spec.1
  exact absurd hlen (by simp)

/-- A path relative to the current directory of a drive. -/
theorem reads_drive_relative {c : ℕ} {r : Text} (hc : isDriveLetter c = true)
    (hr : ¬ StartsSep r) (hE : normalizeSegments true (fields isSep r) = E) (hlast : LastOk E) :
    Reads (fromWin32String (c :: colon :: r)) [c, colon] E := by
  have hentries : entriesAfter (c :: colon :: r) 2 false = E := hE
  have hfields : ∀ e ∈ E, IsField isSep e :=
    hentries ▸ (entriesAfter_normal _ _ _).isField rfl
  have hroot := win32NormalizeRoot_drive hc r
  rw [if_neg hr] at hroot
  rw [fromWin32String, win32Normalize_of_root (by simp) hroot,
    if_neg (not_marks (Or.inr (by simp)) (drive_not_reserved hc r))]
  rcases eq_or_ne E [] with rfl | hne
  · have hnormal : (some [c, colon]).getD [] ++ (if false = true then [backslash] else []) ++
        tailOf (c :: colon :: r) 2 false
        = [c, colon] ++ ([backslash].intercalate ([] ++ [[dot]]) ++ trail (c :: colon :: r)) := by
      rw [tailOf, if_pos hentries, if_neg (by decide)]
      simp
    rw [hnormal, win32Parse_eq ?_ isSep_of_mem_trail (by simp)
      ⟨List.cons_ne_nil _ _, by simp [isSep]⟩]
    · exact ⟨rfl, rfl⟩
    · rw [← hnormal]
      refine (win32ParseRootEnd_drive hc _).trans (if_neg ?_)
      rw [tailOf, if_pos hentries, if_neg (by decide)]
      simp [StartsSep, isSep]
  · have hnormal : (some [c, colon]).getD [] ++ (if false = true then [backslash] else []) ++
        tailOf (c :: colon :: r) 2 false = [c, colon] ++ body E (trail (c :: colon :: r)) := by
      rw [tailOf_eq hentries (Or.inr hne)]
      rfl
    rw [hnormal]
    refine reads_parse _ ?_ isSep_of_mem_trail hfields hlast
    exact (win32ParseRootEnd_drive hc _).trans (if_neg (not_startsSep_body hfields))

/-- A path from the root of a drive. -/
theorem reads_drive_absolute {c c2 : ℕ} {r : Text} (hc : isDriveLetter c = true)
    (h2 : isSep c2 = true) (hE : normalizeSegments false (fields isSep r) = E) (hlast : LastOk E) :
    Reads (fromWin32String (c :: colon :: c2 :: r)) [c, colon, backslash] E := by
  have hentries : entriesAfter (c :: colon :: c2 :: r) 3 true = E := hE
  have hfields : ∀ e ∈ E, IsField isSep e :=
    hentries ▸ (entriesAfter_normal _ _ _).isField rfl
  have hroot := win32NormalizeRoot_drive hc (c2 :: r)
  rw [if_pos ⟨c2, rfl, h2⟩] at hroot
  rw [fromWin32String, win32Normalize_of_root (by simp) hroot,
    if_neg (not_marks (Or.inl rfl) (drive_not_reserved hc (c2 :: r)))]
  rw [tailOf_eq hentries (Or.inl rfl)]
  refine reads_parse [c, colon, backslash] ?_ isSep_of_mem_trail hfields hlast
  exact (win32ParseRootEnd_drive hc _).trans (if_pos ⟨backslash, rfl, rfl⟩)

/-- A path from the root. -/
theorem reads_root {c : ℕ} {r : Text} {rootEnd : ℕ} (hc : isSep c = true) (hr : r ≠ [])
    (hroot : win32NormalizeRoot (c :: r) = .Win32Root none rootEnd true) (hend : rootEnd ≤ 1)
    (hE : normalizeSegments false (fields isSep r) = E) (hlast : LastOk E) :
    Reads (fromWin32String (c :: r)) [backslash] E := by
  have hlen : 2 ≤ (c :: r).length := by
    have hpos := List.length_pos_of_ne_nil hr
    rw [List.length_cons]
    omega
  have hentries : entriesAfter (c :: r) rootEnd true = E := by
    rw [entriesAfter]
    rcases Nat.le_one_iff_eq_zero_or_eq_one.mp hend with rfl | rfl
    · rw [List.drop_zero, fields_cons hc]
      exact hE
    · exact hE
  have hfields : ∀ e ∈ E, IsField isSep e :=
    hentries ▸ (entriesAfter_normal _ _ _).isField rfl
  rw [fromWin32String, win32Normalize_of_root hlen hroot,
    if_neg (not_marks (Or.inl rfl) (isReservedName_sep hc r _)), tailOf_eq hentries (Or.inl rfl)]
  refine reads_parse [backslash] ?_ isSep_of_mem_trail hfields hlast
  exact win32ParseRootEnd_sep rfl (not_startsSep_body hfields)

/-- The root of a share or a device. -/
def shareRoot (first second : Text) : Text :=
  [backslash, backslash] ++ first ++ [backslash] ++ second ++ [backslash]

/-- A printed share is read as a share. -/
theorem share_shareRoot {first second : Text} (hfirst : IsField isSep first)
    (hsecond : IsField isSep second) (r : Text) :
    Share (first ++ ([backslash] ++ (second ++ ([backslash] ++ r)))) first [backslash] second
      ([backslash] ++ r) := by
  refine ⟨rfl, hfirst, ⟨List.cons_ne_nil _ _, fun c hc => ?_⟩, hsecond,
    fun _ => ⟨backslash, rfl, rfl⟩⟩
  rw [List.mem_singleton.mp hc]
  rfl

theorem shareRoot_append (first second r : Text) : shareRoot first second ++ r
    = backslash :: backslash :: (first ++ ([backslash] ++ (second ++ ([backslash] ++ r)))) := by
  simp [shareRoot]

/-- A path below a share is read as that share and its entries. -/
theorem reads_shareRoot {first second : Text} (hfirst : IsField isSep first)
    (hsecond : IsField isSep second) (htr : ∀ c ∈ tr, isSep c = true)
    (hE : ∀ e ∈ E, IsField isSep e) (hlast : LastOk E) :
    Reads (win32Parse (shareRoot first second ++ body E tr)) (shareRoot first second) E := by
  refine reads_parse _ ?_ htr hE hlast
  have hend := (share_shareRoot hfirst hsecond (body E tr)).win32ParseRootEnd isSep_backslash
    isSep_backslash
  rw [if_neg (by simp)] at hend
  rw [shareRoot_append, hend]
  simp [shareRoot]
  omega

/-- A path on a share. -/
theorem reads_share {c0 c1 : ℕ} {afterTwo first seps second r : Text} (h0 : isSep c0 = true)
    (h1 : isSep c1 = true) (hshare : Share afterTwo first seps second r)
    (hfirst : ¬ (first = text "." ∨ first = text "?"))
    (hE : normalizeSegments false (fields isSep r) = E) (hlast : LastOk E) :
    Reads (fromWin32String (c0 :: c1 :: afterTwo)) (shareRoot first second) E := by
  have hroot := hshare.win32NormalizeRoot h0 h1 hfirst
  rcases eq_or_ne r [] with rfl | hne
  · rw [if_pos rfl] at hroot
    have hnil : E = [] := hE.symm
    have hnormal : win32Normalize (c0 :: c1 :: afterTwo)
        = shareRoot first second ++ body [] [] := by
      rw [win32Normalize.eq_def]
      dsimp only
      rw [hroot, body, if_pos rfl]
      simp [shareRoot, text]
    rw [fromWin32String, hnormal, hnil]
    exact reads_shareRoot hshare.first hshare.second (by simp) (by simp) (fun e he => by cases he)
  · rw [if_neg hne] at hroot
    have hdrop : (c0 :: c1 :: afterTwo).drop
        (2 + first.length + seps.length + second.length) = r := by
      rw [hshare.eq, Nat.add_assoc, Nat.add_assoc, ← List.drop_drop, ← List.drop_drop,
        ← List.drop_drop]
      simp
    have hentries : entriesAfter (c0 :: c1 :: afterTwo)
        (2 + first.length + seps.length + second.length) true = E := by
      rw [entriesAfter, hdrop]
      exact hE
    have hfields : ∀ e ∈ E, IsField isSep e :=
      hentries ▸ (entriesAfter_normal _ _ _).isField rfl
    rw [fromWin32String, win32Normalize_of_root (by simp) hroot,
      if_neg (not_marks (Or.inl rfl) (isReservedName_sep h0 _ _)), tailOf_eq hentries (Or.inl rfl)]
    have hnormal : (some (text "\\\\" ++ first ++ text "\\" ++ second)).getD [] ++
        (if true = true then [backslash] else []) ++ body E (trail (c0 :: c1 :: afterTwo))
        = shareRoot first second ++ body E (trail (c0 :: c1 :: afterTwo)) := by
      simp [shareRoot, text]
    rw [hnormal]
    exact reads_shareRoot hshare.first hshare.second isSep_of_mem_trail hfields hlast

theorem nonSep_colon (d r : Text) : ∃ c ∈ d ++ colon :: r, isSep c = false :=
  ⟨colon, by simp, rfl⟩

/-- A device path with a reserved name. -/
theorem reads_device {c0 c1 q c3 : ℕ} {d r : Text} (h0 : isSep c0 = true) (h1 : isSep c1 = true)
    (hq : q = dot ∨ q = 0x3F) (h3 : isSep c3 = true) (hd : Reserved d)
    (hE : normalizeSegments false (fields isSep r) = E) (hlast : LastOk E) :
    Reads (fromWin32String (c0 :: c1 :: q :: c3 :: (d ++ colon :: r)))
      (shareRoot [0x3F] (d ++ [colon])) E := by
  have hroot := (win32NormalizeRoot_device h0 h1 hq h3 (nonSep_colon d r)).1 d r rfl hd
  have hdrop : (c0 :: c1 :: q :: c3 :: (d ++ colon :: r)).drop (4 + (d.length + 1)) = r := by
    rw [← List.drop_drop, ← List.drop_drop]
    simp
  have hentries : entriesAfter (c0 :: c1 :: q :: c3 :: (d ++ colon :: r)) (4 + (d.length + 1)) true
      = E := by
    rw [entriesAfter, hdrop]
    exact hE
  have hfields : ∀ e ∈ E, IsField isSep e :=
    hentries ▸ (entriesAfter_normal _ _ _).isField rfl
  rw [fromWin32String, win32Normalize_of_root (by simp) hroot,
    if_neg (not_marks (Or.inl rfl) (isReservedName_sep h0 _ _)), tailOf_eq hentries (Or.inl rfl)]
  have hnormal : ∀ l : Text, (some (text "\\\\?\\" ++ (d ++ [colon]))).getD [] ++
      (if true = true then [backslash] else []) ++ l = shareRoot [0x3F] (d ++ [colon]) ++ l := by
    intro l
    simp [shareRoot, text]
  rw [hnormal]
  exact reads_shareRoot (isField_single (Or.inr rfl)) (reserved_colon hd) isSep_of_mem_trail
    hfields hlast

/-- The root of a device path with a single entry. -/
def aloneRoot (q : ℕ) (e : Text) : Text := [backslash, backslash, q, backslash] ++ e

/-- A device path with no reserved name: its first entry belongs to the root. -/
theorem reads_local {c0 c1 q c3 : ℕ} {l e : Text} (h0 : isSep c0 = true) (h1 : isSep c1 = true)
    (hq : q = dot ∨ q = 0x3F) (h3 : isSep c3 = true) (hl : ¬ NamesDevice l)
    (hE : normalizeSegments false (fields isSep l) = e :: E) (hlast : LastOk E) :
    Reads (fromWin32String (c0 :: c1 :: q :: c3 :: l))
      (if E = [] ∧ trail (c0 :: c1 :: q :: c3 :: l) = [] then aloneRoot q e else shareRoot [q] e)
      E := by
  have hsome : ∃ c ∈ l, isSep c = false := by
    by_contra hnone
    push Not at hnone
    have hnil := fields_seps (p := isSep) fun c hc => Bool.not_eq_false _ ▸ hnone c hc
    rw [hnil] at hE
    exact List.cons_ne_nil _ _ hE.symm
  have hroot := (win32NormalizeRoot_device h0 h1 hq h3 hsome).2 hl
  have hentries : entriesAfter (c0 :: c1 :: q :: c3 :: l) 4 true = e :: E := hE
  have hfields : ∀ m ∈ e :: E, IsField isSep m :=
    hentries ▸ (entriesAfter_normal _ _ _).isField rfl
  have hsecond := hfields e (List.mem_cons_self ..)
  have hrest : ∀ m ∈ E, IsField isSep m := fun m hm => hfields m (List.mem_cons_of_mem e hm)
  rw [fromWin32String, win32Normalize_of_root (by simp) hroot,
    if_neg (not_marks (Or.inl rfl) (isReservedName_sep h0 _ _)), tailOf_eq hentries (Or.inl rfl),
    body, if_neg (List.cons_ne_nil _ _)]
  have htr : ∀ c ∈ trail (c0 :: c1 :: q :: c3 :: l), isSep c = true := isSep_of_mem_trail
  have htrail : trail (c0 :: c1 :: q :: c3 :: l) = [] ∨
      trail (c0 :: c1 :: q :: c3 :: l) = [backslash] := by
    rw [trail]
    split
    · exact Or.inr rfl
    · exact Or.inl rfl
  generalize trail (c0 :: c1 :: q :: c3 :: l) = tr at htr htrail
  -- what is printed starts with the separators, the mark and one separator more
  have hnormal : ∀ m : Text, (some (text "\\\\" ++ [q])).getD [] ++
      (if true = true then [backslash] else []) ++ m
      = [backslash, backslash, q, backslash] ++ m := by
    intro m
    simp [text]
  rw [hnormal]
  -- with one entry and no separator after it the whole text is the root
  cases E with
  | nil =>
    rcases htrail with rfl | rfl
    · rw [if_pos ⟨rfl, rfl⟩, List.intercalate_singleton, List.append_nil]
      have hshare : Share ([q] ++ ([backslash] ++ (e ++ []))) [q] [backslash] e [] := by
        refine ⟨rfl, isField_single hq, ⟨List.cons_ne_nil _ _, fun c hc => ?_⟩, hsecond,
          fun hne => absurd rfl hne⟩
        rw [List.mem_singleton.mp hc]
        rfl
      have hend := hshare.win32ParseRootEnd isSep_backslash isSep_backslash
      rw [if_pos rfl, List.append_nil] at hend
      have hwhole := win32Parse_root (aloneRoot q e) []
        (by rw [List.append_nil]; refine hend.trans ?_; simp [aloneRoot]; omega) (by simp)
      rw [List.append_nil] at hwhole
      rw [aloneRoot] at hwhole ⊢
      rw [hwhole]
      exact ⟨rfl, rfl⟩
    · rw [if_neg (by simp), List.intercalate_singleton]
      have htext : [backslash, backslash, q, backslash] ++ (e ++ [backslash])
          = shareRoot [q] e ++ body [] [] := by
        simp [shareRoot, body]
      rw [htext]
      exact reads_shareRoot (isField_single hq) hsecond (by simp) (by simp) hlast
  | cons e' E =>
    have htext : [backslash, backslash, q, backslash] ++
        ([backslash].intercalate (e :: e' :: E) ++ tr) = shareRoot [q] e ++ body (e' :: E) tr := by
      rw [body, if_neg (List.cons_ne_nil _ _), List.intercalate_cons_cons]
      simp [shareRoot]
    rw [htext, if_neg (by simp)]
    exact reads_shareRoot (isField_single hq) hsecond htr hrest hlast

end

end SystemPath

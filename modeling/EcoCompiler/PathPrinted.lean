import EcoCompiler.PathProofs

/-! # Printed paths

    * `Printed` — the roots and entries of the paths that are read;
    * `printed_of` — every text is read as one of them;
    * `printed_dots`, `posix_printable` — where `..` stands in a printed text. -/

namespace SystemPath

open Fields

variable {E : List Text}

/-! ## Paths that are read -/

/-- The root and the entries of a path that is read from a text in Windows syntax. -/
inductive Printed : Text → List Text → Prop where
  | empty : Printed [] []
  | single {c : ℕ} (hsep : isSep c = false) (hdot : c ≠ dot) : Printed [] [[c]]
  | marked {E : List Text} (hE : Normal isSep true E) (hne : E ≠ []) : Printed [] ([dot] :: E)
  | plain {E : List Text} (hE : Normal isSep true E) (hne : E ≠ [])
      (hdrive : looksLikeDrive ([backslash].intercalate E) = false)
      (hcolon : ∀ e ∈ E, e.getLast? ≠ some colon) : Printed [] E
  | named {d : Text} {E : List Text} (hd : Reserved d) (hE : Normal isSep true E) :
      Printed [] ([dot] :: glue (d ++ [colon]) E)
  | driveRelative {c : ℕ} {E : List Text} (hc : isDriveLetter c = true)
      (hE : Normal isSep true E) : Printed [c, colon] E
  | driveAbsolute {c : ℕ} {E : List Text} (hc : isDriveLetter c = true)
      (hE : Normal isSep false E) : Printed [c, colon, backslash] E
  | root {E : List Text} (hE : Normal isSep false E) : Printed [backslash] E
  | share {first second : Text} {E : List Text} (hfirst : IsField isSep first)
      (hsecond : IsField isSep second) (hnot : ¬ (first = text "." ∨ first = text "?"))
      (hE : Normal isSep false E) : Printed (shareRoot first second) E
  | device {d : Text} {E : List Text} (hd : Reserved d) (hE : Normal isSep false E) :
      Printed (shareRoot [0x3F] (d ++ [colon])) E
  | alone {q : ℕ} {e : Text} (hq : q = dot ∨ q = 0x3F) (he : Normal isSep false [e]) :
      Printed (aloneRoot q e) []
  | deep {q : ℕ} {e : Text} {E : List Text} (hq : q = dot ∨ q = 0x3F)
      (hE : Normal isSep false (e :: E)) : Printed (shareRoot [q] e) E

theorem colonBeforeSepOrEnd_append (l : Text) {r : Text} (hr : ∀ c ∈ r.head?, isSep c = true) :
    colonBeforeSepOrEnd (l ++ colon :: r) = true := by
  induction l with
  | nil =>
    cases r with
    | nil => rfl
    | cons c r =>
      rw [List.nil_append, colonBeforeSepOrEnd, if_pos rfl, hr c rfl]
      rfl
  | cons c l ih =>
    obtain ⟨d, m, heq⟩ := List.exists_cons_of_ne_nil (l := l ++ colon :: r) (by simp)
    rw [List.cons_append, heq, colonBeforeSepOrEnd, ← heq, ih]
    split
    · exact Bool.or_true _
    · rfl

/-- A colon at the end of an entry. -/
theorem colonBeforeSepOrEnd_of_field {s e : Text} (he : e ∈ fields isSep s)
    (hend : e.getLast? = some colon) : colon ∈ s ∧ colonBeforeSepOrEnd s = true := by
  obtain ⟨-, a, b, rfl, hb⟩ := mem_fields he
  obtain ⟨m, rfl⟩ := List.getLast?_eq_some_iff.mp hend
  have hassoc : a ++ (m ++ [colon] ++ b) = a ++ m ++ colon :: b := by simp
  rw [hassoc]
  exact ⟨by simp, colonBeforeSepOrEnd_append (a ++ m) hb⟩

theorem normal_nil (above : Bool) : Normal isSep above [] :=
  ⟨0, [], rfl, fun _ => rfl, by simp⟩

theorem normalizeSegments_false (r : Text) :
    Normal isSep false (normalizeSegments false (fields isSep r)) :=
  normalizeSegments_normal fun _ he => (isField_of_mem he).1

theorem normalizeSegments_true (r : Text) :
    Normal isSep true (normalizeSegments true (fields isSep r)) :=
  normalizeSegments_normal fun _ he => (isField_of_mem he).1

theorem lastOk_tail {e : Text} {es : List Text} (h : LastOk (e :: es)) : LastOk es := by
  rcases eq_or_ne es [] with rfl | hne
  · exact fun m hm => by cases hm
  · exact (lastOk_cons hne).mp h

theorem printed_device {c0 c1 q c3 : ℕ} {l : Text} (h0 : isSep c0 = true) (h1 : isSep c1 = true)
    (hq : q = dot ∨ q = 0x3F) (h3 : isSep c3 = true) (hl : fields isSep l ≠ [])
    (hs : ¬ EndsInDot isSep (c0 :: c1 :: q :: c3 :: l)) : ∃ root es,
      Reads (fromWin32String (c0 :: c1 :: q :: c3 :: l)) root es ∧ Printed root es ∧
        LastOk es := by
  by_cases hnames : NamesDevice l
  · obtain ⟨d, r, rfl, hd⟩ := hnames
    have heq : c0 :: c1 :: q :: c3 :: (d ++ colon :: r)
        = (c0 :: c1 :: q :: c3 :: (d ++ [colon])) ++ r := by simp
    obtain ⟨hlast, -⟩ := normalizeSegments_lastOk false _ (heq ▸ hs)
    exact ⟨_, _, reads_device h0 h1 hq h3 hd rfl hlast, .device hd (normalizeSegments_false r),
      hlast⟩
  · obtain ⟨hlast, hne⟩ :=
      normalizeSegments_lastOk false [c0, c1, q, c3] (r := l) hs
    obtain ⟨e, E, heq⟩ := List.exists_cons_of_ne_nil (hne hl)
    have hnormal := normalizeSegments_false l
    rw [heq] at hlast hnormal
    refine ⟨_, _, reads_local h0 h1 hq h3 hnames heq (lastOk_tail hlast), ?_, lastOk_tail hlast⟩
    split
    · next halone =>
      rw [halone.1] at hnormal ⊢
      exact .alone hq hnormal
    · exact .deep hq hnormal

theorem printed_unc {c0 c1 : ℕ} {l : Text} (h0 : isSep c0 = true) (h1 : isSep c1 = true)
    (hs : ¬ EndsInDot isSep (c0 :: c1 :: l)) : ∃ root es,
      Reads (fromWin32String (c0 :: c1 :: l)) root es ∧ Printed root es ∧ LastOk es := by
  rcases unc_cases l with ⟨first, seps, second, rest, hshare⟩ | hnone
  · by_cases hfirst : first = text "." ∨ first = text "?"
    · obtain ⟨q, rfl, hq⟩ : ∃ q, first = [q] ∧ (q = dot ∨ q = 0x3F) := by
        rcases hfirst with rfl | rfl
        · exact ⟨dot, rfl, Or.inl rfl⟩
        · exact ⟨0x3F, rfl, Or.inr rfl⟩
      obtain ⟨c3, seps, rfl⟩ := List.exists_cons_of_ne_nil hshare.seps.1
      have h3 := hshare.seps.2 c3 (List.mem_cons_self ..)
      have hfields : fields isSep (seps ++ (second ++ rest)) = second :: fields isSep rest := by
        rw [fields_seps_append fun c hc => hshare.seps.2 c (List.mem_cons_of_mem c3 hc)]
        refine fields_append hshare.second fun c hc => ?_
        obtain ⟨d, hd, hsep⟩ := hshare.rest (List.ne_nil_of_mem (List.mem_of_mem_head? hc))
        rwa [Option.some.inj ((Option.mem_def.mp hc).symm.trans (Option.mem_def.mp hd))]
      rw [hshare.eq] at hs ⊢
      exact printed_device h0 h1 hq h3 (hfields ▸ List.cons_ne_nil _ _) hs
    · have heq : c0 :: c1 :: l = (c0 :: c1 :: (first ++ (seps ++ second))) ++ rest := by
        rw [hshare.eq]
        simp
      obtain ⟨hlast, -⟩ := normalizeSegments_lastOk false _ (heq ▸ hs)
      exact ⟨_, _, reads_share h0 h1 hshare hfirst rfl hlast,
        .share hshare.first hshare.second hfirst
          (normalizeSegments_false rest), hlast⟩
  · obtain ⟨hlast, -⟩ := normalizeSegments_lastOk false [c0] hs
    exact ⟨_, _, reads_root h0 (List.cons_ne_nil _ _) (hnone c0 c1 h0 h1) (Nat.zero_le 1) rfl hlast,
      .root (normalizeSegments_false _), hlast⟩

theorem printed_relative {c0 c1 : ℕ} {l : Text} (h0 : isSep c0 = false)
    (hs : ¬ EndsInDot isSep (c0 :: c1 :: l)) : ∃ root es,
      Reads (fromWin32String (c0 :: c1 :: l)) root es ∧ Printed root es ∧ LastOk es := by
  have hsep : ¬ StartsSep (c0 :: c1 :: l) := by
    rintro ⟨c, hc, hh⟩
    obtain rfl := Option.some.inj hc
    exact absurd (hh.symm.trans h0) (by decide)
  -- in the order of the source: a drive, a device name, and else a relative path
  by_cases hdrive : looksLikeDrive (c0 :: c1 :: l) = true
  · rw [looksLikeDrive, Bool.and_eq_true, decide_eq_true_eq] at hdrive
    obtain ⟨rfl, hletter⟩ := hdrive
    by_cases hstart : StartsSep l
    · obtain ⟨c2, hc2, h2⟩ := hstart
      obtain ⟨r, rfl⟩ := List.head?_eq_some_iff.mp hc2
      obtain ⟨hlast, -⟩ :=
        normalizeSegments_lastOk false [c0, colon, c2] (r := r) hs
      exact ⟨_, _, reads_drive_absolute hletter h2 rfl hlast,
        .driveAbsolute hletter (normalizeSegments_false r), hlast⟩
    · obtain ⟨hlast, -⟩ := normalizeSegments_lastOk true [c0, colon] (r := l) hs
      exact ⟨_, _, reads_drive_relative hletter hstart rfl hlast,
        .driveRelative hletter (normalizeSegments_true l), hlast⟩
  by_cases hnamed : NamesDevice (c0 :: c1 :: l)
  · obtain ⟨d, r, heq, hd⟩ := hnamed
    have happend : c0 :: c1 :: l = (d ++ [colon]) ++ r := by
      rw [heq]
      simp
    obtain ⟨hlast, -⟩ := normalizeSegments_lastOk true _ (happend ▸ hs)
    have hlastGlue := lastOk_glue (l := d ++ [colon]) (by simp)
      ((normalizeSegments_true r).isField rfl) hlast
    refine ⟨_, _, heq ▸ reads_named hd rfl hlast, .named hd (normalizeSegments_true r), ?_⟩
    rw [lastOk_cons]
    · exact hlastGlue
    · cases normalizeSegments true (fields isSep r) <;> exact List.cons_ne_nil _ _
  · obtain ⟨hlast, hne⟩ :=
      normalizeSegments_lastOk true [] (r := c0 :: c1 :: l) hs
    obtain ⟨piece, rest, -, -, -, hfields, -⟩ := fields_cons_of_not h0 (c1 :: l)
    have hnil := hne (hfields ▸ List.cons_ne_nil _ _)
    have hnormal := normalizeSegments_true (c0 :: c1 :: l)
    have hread := reads_plain (by simp) hsep (Bool.eq_false_iff.mpr hdrive) hnamed rfl hnil hlast
    -- a leading `.` is written where the text would be read as something else
    by_cases hmarks : Marks (c0 :: c1 :: l) none false (tailOf (c0 :: c1 :: l) 0 false)
    · rw [if_pos hmarks] at hread
      exact ⟨_, _, hread, .marked hnormal hnil, (lastOk_cons hnil).mpr hlast⟩
    · rw [if_neg hmarks] at hread
      obtain ⟨hlooks, hcolon⟩ := looksLikeDrive_of_not_marks rfl hnil hmarks
      refine ⟨_, _, hread, .plain hnormal hnil ?_ fun e he hend => ?_, hlast⟩
      · refine Bool.eq_false_iff.mpr fun hh => ?_
        have happend := looksLikeDrive_append (r := trail (c0 :: c1 :: l)) hh
        have hentries : entriesAfter (c0 :: c1 :: l) 0 false ≠ [] := hnil
        rw [body, if_neg hentries] at hlooks
        exact absurd (hlooks.symm.trans happend) (by decide)
      · rcases mem_normalizeSegments he with rfl | he
        · exact absurd hend (by decide)
        · obtain ⟨hmem, hbefore⟩ := colonBeforeSepOrEnd_of_field he hend
          exact absurd ((hcolon hmem).symm.trans hbefore) (by decide)

theorem reads_single {c : ℕ} (hsep : isSep c = false) (hdot : c ≠ dot) :
    Reads (fromWin32String [c]) [] [[c]] := by
  have hne : c ≠ slash := by
    rintro rfl
    exact absurd hsep (by decide)
  have hnormal : win32Normalize [c] = [] ++ body [[c]] [] := by
    rw [win32Normalize.eq_def]
    dsimp only
    rw [if_neg hne]
    simp [body]
  rw [fromWin32String, hnormal]
  refine reads_parse _ ?_ (by simp) (fun e he => ?_) fun e he => ?_
  · rw [← hnormal, win32Normalize.eq_def]
    dsimp only
    rw [if_neg hne]
    exact if_neg (by rw [hsep]; decide)
  · rw [List.mem_singleton.mp he]
    exact ⟨List.cons_ne_nil _ _, by simpa using hsep⟩
  · obtain rfl := Option.some.inj he
    exact fun hend => hdot (Option.some.inj hend)

theorem reads_sep {c : ℕ} (hsep : isSep c = true) : Reads (fromWin32String [c]) [backslash] [] := by
  have hnormal : win32Normalize [c] = [backslash] := by
    rw [win32Normalize.eq_def]
    dsimp only
    split
    · rfl
    · next hne =>
      rw [isSep, Bool.or_eq_true, decide_eq_true_eq, decide_eq_true_eq] at hsep
      rw [hsep.resolve_left hne]
  rw [fromWin32String, hnormal]
  exact ⟨rfl, rfl⟩

theorem win32NormalizeRoot_sep {c : ℕ} {r : Text} (hc : isSep c = true) (hne : r ≠ [])
    (hr : ¬ StartsSep r) : win32NormalizeRoot (c :: r) = .Win32Root none 1 true := by
  obtain ⟨c1, r, rfl⟩ := List.exists_cons_of_ne_nil hne
  rw [win32NormalizeRoot.eq_def]
  dsimp only
  rw [if_pos hc, if_neg fun hh => hr ⟨c1, rfl, hh⟩]

/-- Every text is read as a path that is printed. -/
theorem printed_of {s : Text} (hs : ¬ EndsInDot isSep s) :
    ∃ root es, Reads (fromWin32String s) root es ∧ Printed root es ∧ LastOk es := by
  have hempty : LastOk [] := fun e he => by cases he
  rcases s with _ | ⟨c0, _ | ⟨c1, l⟩⟩
  · exact ⟨[], [], ⟨rfl, rfl⟩, .empty, hempty⟩
  · cases h0 : isSep c0 with
    | true => exact ⟨_, _, reads_sep h0, .root (normal_nil false), hempty⟩
    | false =>
      have hdot : c0 ≠ dot := by
        rintro rfl
        exact hs ⟨[dot], rfl, rfl⟩
      refine ⟨_, _, reads_single h0 hdot, .single h0 hdot, fun e he => ?_⟩
      obtain rfl := Option.some.inj he
      exact fun hend => hdot (Option.some.inj hend)
  · cases h0 : isSep c0 with
    | false => exact printed_relative h0 hs
    | true =>
      cases h1 : isSep c1 with
      | true => exact printed_unc h0 h1 hs
      | false =>
        have hstart : ¬ StartsSep (c1 :: l) := by
          rintro ⟨c, hc, hh⟩
          obtain rfl := Option.some.inj hc
          exact absurd (hh.symm.trans h1) (by decide)
        have hroot := win32NormalizeRoot_sep h0 (List.cons_ne_nil _ _) hstart
        obtain ⟨hlast, -⟩ :=
          normalizeSegments_lastOk false [c0] (r := c1 :: l) hs
        exact ⟨_, _, reads_root h0 (List.cons_ne_nil _ _) hroot le_rfl rfl hlast,
          .root (normalizeSegments_false _), hlast⟩

/-! ## The entries of a printed text -/

/-- A printed text: its root, and entries that are not empty and hold no separator. -/
structure Printable (p : ℕ → Bool) (separator : ℕ) (path : Path) (t : Text) : Prop where
  text_eq : t = if path.root = [] ∧ parts path = [] then [dot]
    else path.root ++ [separator].intercalate (parts path)
  entries : ∀ e ∈ parts path, IsField p e

/-- No `..` after an entry other than `..`. -/
def DotsFirst (es : List Text) : Prop :=
  ∃ k names, es = List.replicate k [dot, dot] ++ names ∧ [dot, dot] ∉ names

/-- In POSIX syntax `..` comes first, or after a leading `.`, and under no root. -/
def PosixDots (path : Path) : Prop :=
  (DotsFirst (parts path) ∨ ∃ es, parts path = [dot] :: es ∧ DotsFirst es) ∧
    ([dot, dot] ∈ parts path → path.root = [])

/-- In Windows syntax `..` comes first, or after a leading `.`, or after one and a reserved device
    name, and under no root but a drive. -/
def Win32Dots (path : Path) : Prop :=
  (DotsFirst (parts path) ∨ (path.root = [] ∧ ∃ es, DotsFirst es ∧ (parts path = [dot] :: es ∨
      ∃ d, Reserved d ∧ parts path = [dot] :: glue (d ++ [colon]) es))) ∧
    ([dot, dot] ∈ parts path → path.root = [] ∨ ∃ c, path.root = [c, colon])

section

variable {p : ℕ → Bool} {above : Bool}

theorem dotsFirst_of_normal (hE : Normal p above E) : DotsFirst E := by
  obtain ⟨k, names, rfl, -, hnames⟩ := hE
  exact ⟨k, names, rfl, fun hmem => (hnames _ hmem).2.2 rfl⟩

/-- Under a root nothing is above it. -/
theorem dots_notMem (hE : Normal p false E) : [dot, dot] ∉ E := by
  obtain ⟨k, names, rfl, hk, hnames⟩ := hE
  rw [hk rfl, List.replicate_zero, List.nil_append]
  exact fun hmem => (hnames _ hmem).2.2 rfl

end

theorem posix_printable {s : Text} (hs : ¬ EndsInDot isSlash s) :
    Printable isSlash slash (fromPosixString s) (toPosixString (fromPosixString s)) ∧
      PosixDots (fromPosixString s) := by
  have hread := posix_reads hs
  have hroot : posixRoot s = [] ∨ posixRoot s = [slash] := by
    rw [posixRoot]
    split
    · exact Or.inr rfl
    · exact Or.inl rfl
  have hnormal := posixEntries_normal s
  refine ⟨⟨?_, ?_⟩, ?_, ?_⟩
  · rw [hread.posix hroot, hread.root_eq, hread.parts_eq]
  · rw [hread.parts_eq]
    exact isField_posixEntries
  · rw [hread.parts_eq, posixEntries, dotPrefix]
    split
    · exact Or.inr ⟨_, rfl, dotsFirst_of_normal hnormal⟩
    · exact Or.inl (dotsFirst_of_normal hnormal)
  · rw [hread.parts_eq, hread.root_eq]
    intro hmem
    by_contra hne
    rw [decide_eq_false hne] at hnormal
    rw [posixEntries, decide_eq_false hne] at hmem
    rcases List.mem_append.mp hmem with hmem | hmem
    · rw [dotPrefix] at hmem
      split at hmem
      · exact absurd (List.mem_singleton.mp hmem) (by decide)
      · cases hmem
    · exact dots_notMem hnormal hmem

theorem printed_fields {root : Text} {es : List Text} (h : Printed root es) :
    ∀ e ∈ es, IsField isSep e := by
  have hdot : IsField isSep [dot] := ⟨List.cons_ne_nil _ _, by simp [isSep]⟩
  have hcons : ∀ {E : List Text}, (∀ e ∈ E, IsField isSep e) →
      ∀ e ∈ [dot] :: E, IsField isSep e := by
    intro E hE e he
    rcases List.mem_cons.mp he with rfl | he
    · exact hdot
    · exact hE e he
  cases h with
  | empty => exact fun e he => by cases he
  | single hsep =>
    intro e he
    rw [List.mem_singleton.mp he]
    exact ⟨List.cons_ne_nil _ _, by simpa using hsep⟩
  | marked hE => exact hcons (hE.isField rfl)
  | plain hE => exact hE.isField rfl
  | named hd hE => exact hcons (isField_glue (reserved_colon hd) (hE.isField rfl))
  | driveRelative _ hE => exact hE.isField rfl
  | driveAbsolute _ hE => exact hE.isField rfl
  | root hE => exact hE.isField rfl
  | share _ _ _ hE => exact hE.isField rfl
  | device _ hE => exact hE.isField rfl
  | alone => exact fun e he => by cases he
  | deep _ hE => exact fun e he => hE.isField rfl e (List.mem_cons_of_mem _ he)

theorem printed_dots {path : Path} {root : Text} {es : List Text} (hread : Reads path root es)
    (h : Printed root es) : Win32Dots path := by
  rw [Win32Dots, hread.parts_eq, hread.root_eq]
  cases h with
  | empty => exact ⟨Or.inl ⟨0, [], rfl, by simp⟩, fun _ => Or.inl rfl⟩
  | single => exact ⟨Or.inl ⟨0, _, rfl, by simp⟩, fun _ => Or.inl rfl⟩
  | marked hE =>
    exact ⟨Or.inr ⟨rfl, _, dotsFirst_of_normal hE, Or.inl rfl⟩, fun _ => Or.inl rfl⟩
  | plain hE => exact ⟨Or.inl (dotsFirst_of_normal hE), fun _ => Or.inl rfl⟩
  | named hd hE =>
    exact ⟨Or.inr ⟨rfl, _, dotsFirst_of_normal hE, Or.inr ⟨_, hd, rfl⟩⟩, fun _ => Or.inl rfl⟩
  | driveRelative _ hE => exact ⟨Or.inl (dotsFirst_of_normal hE), fun _ => Or.inr ⟨_, rfl⟩⟩
  | driveAbsolute _ hE =>
    exact ⟨Or.inl (dotsFirst_of_normal hE), fun hmem => absurd hmem (dots_notMem hE)⟩
  | root hE => exact ⟨Or.inl (dotsFirst_of_normal hE), fun hmem => absurd hmem (dots_notMem hE)⟩
  | share _ _ _ hE =>
    exact ⟨Or.inl (dotsFirst_of_normal hE), fun hmem => absurd hmem (dots_notMem hE)⟩
  | device _ hE =>
    exact ⟨Or.inl (dotsFirst_of_normal hE), fun hmem => absurd hmem (dots_notMem hE)⟩
  | alone => exact ⟨Or.inl ⟨0, [], rfl, by simp⟩, fun hmem => by cases hmem⟩
  | deep _ hE =>
    have hnot := dots_notMem hE
    rw [List.mem_cons, not_or] at hnot
    exact ⟨Or.inl ⟨0, _, rfl, hnot.2⟩, fun hmem => absurd hmem hnot.2⟩

end SystemPath

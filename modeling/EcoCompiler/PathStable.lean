import EcoCompiler.PathPrinted

/-! # Printed paths are stable

    * `Unsettled`, `Marked` — the texts that are read as another path, and those that are marked;
    * `stable_plain`, `stable_deep`, … — what is printed, read again;
    * `normalization_stable` — printing is stable. -/

namespace SystemPath

open Fields

variable {E : List Text}

/-! ## Paths that are printed -/

/-- Texts that are read as another path than the one that was printed: a reserved device name
    whose entry ends in a dot, or is followed by more than one `..`, and a device path whose first
    entry names a device. -/
def Unsettled (t : Text) : Prop :=
  (∃ d r, t = d ++ colon :: dot :: backslash :: r ∧ Reserved d) ∨
  (∃ d r, t = dot :: backslash :: (d ++ colon ::
    ([dot, dot] ++ backslash :: ([dot, dot] ++ backslash :: r))) ∧ Reserved d) ∨
  (∃ l, t = backslash :: backslash :: dot :: backslash :: l ∧ NamesDevice l) ∨
  (∃ d r, t = backslash :: backslash :: 0x3F :: backslash :: (d ++ colon :: r) ∧ Reserved d ∧
    r.head? ≠ some backslash)

/-- A text without its leading `.\`. -/
def unmark (t : Text) : Text := if [dot, backslash] <+: t then t.drop 2 else t

/-- The test for the leading `.\` holds of a text with no root. -/
def Marked (t : Text) : Prop := 2 ≤ t.length ∧ Marks t none false (unmark t)

instance (t : Text) : Decidable (Marked t) := inferInstanceAs (Decidable (_ ∧ _))

/-- Entries joined by backslashes are the fields of the text. -/
theorem fields_body (hE : ∀ e ∈ E, IsField isSep e) :
    fields isSep ([backslash].intercalate E) = E := fields_intercalate rfl hE

theorem fields_body_cons (hE : ∀ e ∈ E, IsField isSep e) :
    fields isSep (backslash :: [backslash].intercalate E) = E :=
  (fields_cons rfl _).trans (fields_body hE)

/-- A text that ends in an entry has no trail. -/
theorem trail_append {e : Text} (he : IsField isSep e) (l : Text) : trail (l ++ e) = [] := by
  obtain ⟨init, c, rfl⟩ : ∃ init c, e = init ++ [c] := by
    rcases List.eq_nil_or_concat e with hnil | ⟨init, c, heq⟩
    · exact absurd hnil he.1
    · exact ⟨init, c, heq.trans List.concat_eq_append⟩
  have hc := he.2 c (by simp)
  rw [trail, lastOf, ← List.append_assoc, List.reverse_concat]
  exact if_neg (by simp [hc])

/-- Entries do not end in a separator. -/
theorem trail_intercalate (hE : ∀ e ∈ E, IsField isSep e) (hne : E ≠ []) (l : Text) :
    trail (l ++ [backslash].intercalate E) = [] := by
  obtain ⟨init, e, rfl⟩ := exists_last hne
  rw [intercalate_concat, ← List.append_assoc]
  exact trail_append (hE e (by simp)) _

/-- A text with no root, read again: marked or not. -/
theorem reads_unmark {t : Text} (hne : E ≠ []) (hlast : LastOk E)
    (hunmark : unmark t = [backslash].intercalate E) (hlen : 2 ≤ t.length) (hsep : ¬ StartsSep t)
    (hdrive : looksLikeDrive t = false) (hnamed : ¬ NamesDevice t)
    (hentries : entriesAfter t 0 false = E) (htrail : trail t = []) :
    Reads (fromWin32String t) [] (if Marked t then [dot] :: E else E) := by
  have htail : tailOf t 0 false = unmark t := by
    rw [tailOf_eq hentries (Or.inr hne), htrail, body, if_neg hne, List.append_nil, hunmark]
  have hread := reads_plain hlen hsep hdrive hnamed hentries hne hlast
  rw [htail] at hread
  have hmarked : Marked t ↔ Marks t none false (unmark t) := and_iff_right hlen
  rwa [if_congr hmarked rfl rfl]

/-- The mark comes off again. -/
theorem unmark_mark (t : Text) : unmark (dot :: backslash :: t) = t := if_pos ⟨t, rfl⟩

theorem unmark_of_head {t : Text} (h : t.head? ≠ some dot) : unmark t = t := by
  refine if_neg ?_
  rintro ⟨r, rfl⟩
  exact h rfl

/-- A text whose first entry is not `.` has no mark. -/
theorem unmark_of_fields {t : Text} (h : (fields isSep t).head? ≠ some [dot]) : unmark t = t := by
  refine if_neg ?_
  rintro ⟨r, rfl⟩
  have hdot : IsField isSep [dot] := ⟨List.cons_ne_nil _ _, by simp [isSep]⟩
  have hfields := fields_append hdot (r := backslash :: r) (by simp [isSep])
  refine h ?_
  have hcons : [dot, backslash] ++ r = [dot] ++ backslash :: r := rfl
  rw [hcons, hfields]
  rfl

/-- What is printed with a leading `.`. -/
theorem stable_marked (hE : Normal isSep true E) (hne : E ≠ []) (hlast : LastOk E) :
    Reads (fromWin32String (dot :: backslash :: [backslash].intercalate E)) []
      (if Marked (dot :: backslash :: [backslash].intercalate E) then [dot] :: E else E) := by
  have hfields := hE.isField rfl
  have hdot : IsField isSep [dot] := ⟨List.cons_ne_nil _ _, by simp [isSep]⟩
  refine reads_unmark hne hlast (unmark_mark _) (by simp) (by simp [StartsSep, isSep]) rfl ?_ ?_
    (trail_intercalate hfields hne [dot, backslash])
  · rintro ⟨d, r, heq, hd⟩
    obtain ⟨c, d, rfl⟩ := List.exists_cons_of_ne_nil hd.ne_nil
    have hc := (hd.spec.2 c (List.mem_cons_self ..)).2.1
    exact hc (List.cons.inj heq).1.symm
  · have hcons : fields isSep (dot :: backslash :: [backslash].intercalate E) = [dot] :: E :=
      (fields_append hdot (r := backslash :: [backslash].intercalate E) (by simp [isSep])).trans
        (by rw [fields_body_cons hfields])
    rw [entriesAfter, List.drop_zero, hcons]
    exact (normalizeSegments_dot true E).trans (normalizeSegments_of_normal hE)

/-- A device and the entry glued to it are one name. -/
theorem isName_glue {d e : Text} (hd : Reserved d) (he : IsField isSep e) :
    IsName isSep (d ++ [colon] ++ e) := by
  have hthree := hd.spec.1
  have hcolon := reserved_colon hd
  have hlong : ∀ m : Text, m.length ≤ 2 → d ++ [colon] ++ e ≠ m := by
    rintro m hm rfl
    rw [List.length_append, List.length_append] at hm
    omega
  refine ⟨⟨by simp, fun c hc => ?_⟩, hlong _ (by decide), hlong _ (by decide)⟩
  exact (List.mem_append.mp hc).elim (hcolon.2 c) (he.2 c)

theorem isName_named {d : Text} (hd : Reserved d) : IsName isSep (d ++ [colon]) := by
  have hthree := hd.spec.1
  refine ⟨reserved_colon hd, ?_, ?_⟩
  · intro heq
    have hlen := congrArg List.length heq
    simp only [List.length_append, List.length_singleton] at hlen
    omega
  · intro heq
    have hlen := congrArg List.length heq
    simp only [List.length_append, List.length_cons, List.length_nil] at hlen
    omega

/-- After a device name at most one `..` is kept apart. -/
theorem normal_glue {d : Text} (hd : Reserved d) (hE : Normal isSep true E) (hlast : LastOk E)
    (hsettled : ¬ Unsettled ([backslash].intercalate ([dot] :: glue (d ++ [colon]) E))) :
    Normal isSep true (glue (d ++ [colon]) E) := by
  obtain ⟨k, names, rfl, -, hnames⟩ := hE
  have hdots : IsField isSep [dot, dot] := ⟨List.cons_ne_nil _ _, by simp [isSep]⟩
  rcases k with _ | _ | k
  · refine ⟨0, glue (d ++ [colon]) names, rfl, fun _ => rfl, fun e he => ?_⟩
    cases names with
    | nil =>
      rw [List.mem_singleton.mp he]
      exact isName_named hd
    | cons n names =>
      rcases List.mem_cons.mp he with rfl | he
      · exact isName_glue hd (hnames n (List.mem_cons_self ..)).1
      · exact hnames e (List.mem_cons_of_mem n he)
  · refine ⟨0, (d ++ [colon] ++ [dot, dot]) :: names, rfl, fun _ => rfl, fun e he => ?_⟩
    rcases List.mem_cons.mp he with rfl | he
    · exact isName_glue hd hdots
    · exact hnames e he
  · cases names with
    | nil =>
      refine absurd rfl (hlast [dot, dot] ?_)
      rw [List.append_nil, List.replicate_succ', List.getLast?_concat]
      rfl
    | cons n names =>
      refine absurd (Or.inr (Or.inl ⟨d, [backslash].intercalate
        (List.replicate k [dot, dot] ++ n :: names), ?_, hd⟩)) hsettled
      obtain ⟨e, es, heq⟩ := List.exists_cons_of_ne_nil
        (l := List.replicate k [dot, dot] ++ n :: names) (by simp)
      rw [List.replicate_succ, List.replicate_succ, List.cons_append, List.cons_append, heq, glue,
        List.intercalate_cons_cons, List.intercalate_cons_cons, List.intercalate_cons_cons]
      simp

/-- The first entry of a text that names a device. -/
theorem exists_first_entry {d r e rest : Text} (hd : Reserved d)
    (hrest : ∀ c ∈ rest.head?, isSep c = true) (heq : e ++ rest = d ++ colon :: r) :
    ∃ m, e = d ++ colon :: m ∧ r = m ++ rest := by
  rcases List.append_eq_append_iff.mp heq with ⟨m, hd', hm⟩ | ⟨m, he', hm⟩
  -- the name does not reach past the entry
  · cases m with
    | nil =>
      rw [List.nil_append] at hm
      rw [hm] at hrest
      exact absurd (hrest colon rfl) (by decide)
    | cons c m =>
      rw [List.cons_append] at hm
      have hc := hrest c (by rw [hm]; rfl)
      have hmem : c ∈ d := by
        rw [hd']
        simp
      exact absurd ((hd.spec.2 c hmem).1.symm.trans hc) (by decide)
  · cases m with
    | nil =>
      rw [List.nil_append] at hm
      rw [← hm] at hrest
      exact absurd (hrest colon rfl) (by decide)
    | cons c m =>
      obtain ⟨hc, hr⟩ := List.cons.inj hm
      exact ⟨m, hc ▸ he', hr⟩

/-- The entries after the first one. -/
def restText (es : List Text) : Text :=
  if es = [] then [] else backslash :: [backslash].intercalate es

theorem intercalate_cons_rest (e : Text) (es : List Text) :
    [backslash].intercalate (e :: es) = e ++ restText es := by
  cases es with
  | nil => simp [restText]
  | cons m es =>
    rw [List.intercalate_cons_cons, restText, if_neg (List.cons_ne_nil _ _), List.append_assoc]
    rfl

/-- What follows an entry starts with a separator. -/
theorem head_restText (es : List Text) : ∀ c ∈ (restText es).head?, isSep c = true := by
  intro c hc
  rw [restText] at hc
  split at hc
  · cases hc
  · obtain rfl := Option.some.inj hc
    rfl

theorem fields_restText {es : List Text} (hes : ∀ e ∈ es, IsField isSep e) :
    fields isSep (restText es) = es := by
  rw [restText]
  split
  · next hnil =>
    rw [hnil]
    rfl
  · exact fields_body_cons hes

/-- What is printed with neither a root nor a leading `.` and names a device. -/
theorem stable_names {e : Text} (hE : Normal isSep true (e :: E)) (hlast : LastOk (e :: E))
    (hcolon : e.getLast? ≠ some colon) {d r : Text} (hd : Reserved d)
    (heq : [backslash].intercalate (e :: E) = d ++ colon :: r)
    (hsettled : ¬ Unsettled ([backslash].intercalate (e :: E))) :
    Reads (fromWin32String ([backslash].intercalate (e :: E))) [] ([dot] :: e :: E) := by
  have hfields := hE.isField rfl
  have hrest : ∀ m ∈ E, IsField isSep m := fun m hm => hfields m (List.mem_cons_of_mem e hm)
  obtain ⟨m, rfl, rfl⟩ := exists_first_entry hd
    (head_restText E) ((intercalate_cons_rest e E).symm.trans heq)
  have hm : m ≠ [] := by
    rintro rfl
    exact hcolon (by simp)
  have hmfield : IsField isSep m :=
    ⟨hm, fun c hc => (hfields _ (List.mem_cons_self ..)).2 c (by simp [hc])⟩
  have hmlast : LastOk (m :: E) := by
    rcases eq_or_ne E [] with rfl | hne
    · intro x hx
      obtain rfl : m = x := Option.some.inj hx
      have hend : (d ++ colon :: m).getLast? ≠ some dot := hlast _ rfl
      have hassoc : d ++ colon :: m = d ++ [colon] ++ m := by simp
      rwa [hassoc, List.getLast?_append_of_ne_nil _ hm] at hend
    · exact (lastOk_cons hne).mpr (lastOk_tail hlast)
  -- a dot there would be what `Unsettled` excludes
  have hmdot : m ≠ [dot] := by
    rintro rfl
    rcases eq_or_ne E [] with rfl | hne
    · exact hmlast _ rfl rfl
    · refine hsettled (Or.inl ⟨d, [backslash].intercalate E, ?_, hd⟩)
      rw [heq, restText, if_neg hne]
      rfl
  -- the first entry is longer than `..`, so no `..` stands after it
  have hnames : ∀ n ∈ E, IsName isSep n := by
    obtain ⟨k, names, hsplit, -, hnames⟩ := hE
    cases k with
    | zero =>
      rw [List.replicate_zero, List.nil_append] at hsplit
      intro n hn
      exact hnames n (hsplit ▸ List.mem_cons_of_mem _ hn)
    | succ k =>
      rw [List.replicate_succ, List.cons_append] at hsplit
      have hlen := congrArg List.length (List.cons.inj hsplit).1
      have hthree := hd.spec.1
      simp only [List.length_append, List.length_cons, List.length_nil] at hlen
      omega
  have hnormal : Normal isSep true (m :: E) := by
    by_cases hdots : m = [dot, dot]
    · rw [hdots]
      exact ⟨1, E, rfl, fun hh => absurd hh (by decide), hnames⟩
    · refine ⟨0, m :: E, rfl, fun _ => rfl, fun n hn => ?_⟩
      rcases List.mem_cons.mp hn with rfl | hn
      · exact ⟨hmfield, hmdot, hdots⟩
      · exact hnames n hn
  have hread := reads_named hd (r := m ++ restText E) (E := m :: E) (by
    rw [fields_append hmfield (head_restText E), fields_restText hrest]
    exact normalizeSegments_of_normal hnormal) hmlast
  rw [heq]
  rwa [glue, List.append_assoc, List.singleton_append] at hread

/-- What is printed with neither a root nor a leading `.`. -/
theorem stable_plain (hE : Normal isSep true E) (hne : E ≠ [])
    (hdrive : looksLikeDrive ([backslash].intercalate E) = false)
    (hcolon : ∀ e ∈ E, e.getLast? ≠ some colon) (hlast : LastOk E)
    (hsettled : ¬ Unsettled ([backslash].intercalate E)) :
    Reads (fromWin32String ([backslash].intercalate E)) []
        (if Marked ([backslash].intercalate E) then [dot] :: E else E) ∧
      unmark ([backslash].intercalate E) = [backslash].intercalate E := by
  have hfields := hE.isField rfl
  have hsep := not_startsSep hfields [] hne
  rw [List.append_nil] at hsep
  have hunmark : unmark ([backslash].intercalate E) = [backslash].intercalate E := by
    refine unmark_of_fields ?_
    rw [fields_body hfields]
    exact hE.head_ne_dot
  refine ⟨?_, hunmark⟩
  by_cases hnamed : NamesDevice ([backslash].intercalate E)
  · obtain ⟨d, r, heq, hd⟩ := hnamed
    obtain ⟨e, es, rfl⟩ := List.exists_cons_of_ne_nil hne
    have hmarked : Marked ([backslash].intercalate (e :: es)) := by
      rw [heq]
      refine ⟨?_, marks_named hd⟩
      have hthree := hd.spec.1
      rw [List.length_append]
      omega
    rw [if_pos hmarked]
    exact stable_names hE hlast (hcolon e (List.mem_cons_self ..)) hd heq hsettled
  · by_cases hlen : 2 ≤ ([backslash].intercalate E).length
    · refine reads_unmark hne hlast hunmark hlen hsep hdrive hnamed ?_
        (trail_intercalate hfields hne [])
      rw [entriesAfter, List.drop_zero, fields_body hfields]
      exact normalizeSegments_of_normal hE
    -- a single character is left as it is
    · rw [if_neg fun hmarked => hlen hmarked.1]
      obtain ⟨e, es, rfl⟩ := List.exists_cons_of_ne_nil hne
      have hne' := (hfields e (List.mem_cons_self ..)).1
      rw [intercalate_cons_rest] at hlen ⊢
      obtain ⟨c, e, rfl⟩ := List.exists_cons_of_ne_nil hne'
      rw [List.cons_append, List.length_cons, List.length_append] at hlen
      obtain rfl : e = [] := List.length_eq_zero_iff.mp (by omega)
      have hnil : es = [] := by
        by_contra hes
        rw [restText, if_neg hes, List.length_cons] at hlen
        omega
      subst hnil
      have hdot : c ≠ dot := by
        rintro rfl
        exact hlast [dot] rfl rfl
      exact reads_single ((hfields [c] (List.mem_cons_self ..)).2 c (by simp)) hdot

/-! ## Paths with a root -/

/-- Normalized entries are read back from the text they are printed as. -/
theorem entries_printed {above : Bool} (hE : Normal isSep above E) :
    normalizeSegments above (fields isSep ([backslash].intercalate E)) = E := by
  rw [fields_body (hE.isField rfl)]
  exact normalizeSegments_of_normal hE

/-- That text starts with no separator. -/
theorem not_startsSep_printed {above : Bool} (hE : Normal isSep above E) :
    ¬ StartsSep ([backslash].intercalate E) := by
  rcases eq_or_ne E [] with rfl | hne
  · simp [StartsSep]
  · have hstart := not_startsSep (hE.isField rfl) [] hne
    rwa [List.append_nil] at hstart

/-- A path below one separator is read back. -/
theorem stable_root (hE : Normal isSep false E) (hlast : LastOk E) :
    Reads (fromWin32String ([backslash] ++ [backslash].intercalate E)) [backslash] E := by
  rcases eq_or_ne E [] with rfl | hne
  · exact reads_sep rfl
  · have hnil := intercalate_ne_nil (hE.isField rfl) hne [backslash]
    have hroot := win32NormalizeRoot_sep (c := backslash) rfl hnil (not_startsSep_printed hE)
    exact reads_root rfl hnil hroot le_rfl (entries_printed hE) hlast

/-- The entries below a root are read back. -/
theorem entries_after_sep (hE : Normal isSep false E) :
    normalizeSegments false (fields isSep ([backslash] ++ [backslash].intercalate E)) = E := by
  rw [List.singleton_append, fields_cons rfl]
  exact entries_printed hE

/-- A path below a share is read back. -/
theorem stable_share {first second : Text} (hfirst : IsField isSep first)
    (hsecond : IsField isSep second) (hnot : ¬ (first = text "." ∨ first = text "?"))
    (hE : Normal isSep false E) (hlast : LastOk E) :
    Reads (fromWin32String (shareRoot first second ++ [backslash].intercalate E))
      (shareRoot first second) E := by
  rw [shareRoot_append]
  exact reads_share rfl rfl (share_shareRoot hfirst hsecond _) hnot (entries_after_sep hE) hlast

/-- A path below a device's share is read back. -/
theorem stable_device {d : Text} (hd : Reserved d) (hE : Normal isSep false E)
    (hlast : LastOk E) :
    Reads (fromWin32String (shareRoot [0x3F] (d ++ [colon]) ++ [backslash].intercalate E))
      (shareRoot [0x3F] (d ++ [colon])) E := by
  rw [shareRoot_append]
  have hread := reads_device isSep_backslash isSep_backslash (Or.inr rfl) isSep_backslash hd
    (entries_after_sep hE) hlast
  have hassoc : d ++ colon :: ([backslash] ++ [backslash].intercalate E)
      = d ++ [colon] ++ ([backslash] ++ [backslash].intercalate E) := by simp
  rwa [hassoc] at hread

/-- A settled device path whose first entry names a device: the entry is the device. -/
theorem device_of_names {q : ℕ} {e rest : Text} (hq : q = dot ∨ q = 0x3F) (he : IsField isSep e)
    (hrest : ∀ c ∈ rest.head?, isSep c = true)
    (hsettled : ¬ Unsettled (backslash :: backslash :: q :: backslash :: (e ++ rest)))
    (hnames : NamesDevice (e ++ rest)) :
    q = 0x3F ∧ (∃ d, Reserved d ∧ e = d ++ [colon]) ∧ rest.head? = some backslash := by
  rcases hq with rfl | rfl
  · exact absurd (Or.inr (Or.inr (Or.inl ⟨_, rfl, hnames⟩))) hsettled
  obtain ⟨d, r, heq, hd⟩ := hnames
  have hhead : r.head? = some backslash := by
    by_contra hh
    exact hsettled (Or.inr (Or.inr (Or.inr ⟨d, r, by rw [heq], hd, hh⟩)))
  obtain ⟨m, rfl, rfl⟩ := exists_first_entry hd hrest heq
  cases m with
  | nil => exact ⟨rfl, ⟨d, hd, rfl⟩, hhead⟩
  | cons c m =>
    obtain rfl : c = backslash := Option.some.inj hhead
    exact absurd (he.2 backslash (by simp)) (by decide)

/-- A device path of one entry is read back unless it is unsettled. -/
theorem stable_alone {q : ℕ} {e : Text} (hq : q = dot ∨ q = 0x3F) (he : Normal isSep false [e])
    (hsettled : ¬ Unsettled (aloneRoot q e)) :
    Reads (fromWin32String (aloneRoot q e)) (aloneRoot q e) [] := by
  have hfield := he.isField rfl e (List.mem_singleton_self e)
  have hnames : ¬ NamesDevice e := by
    intro hn
    rw [← List.append_nil e] at hn
    obtain ⟨-, -, hhead⟩ := device_of_names hq hfield (by simp)
      (by rw [List.append_nil]; exact hsettled) hn
    cases hhead
  have hentries := entries_printed he
  rw [List.intercalate_singleton] at hentries
  have hread := reads_local isSep_backslash isSep_backslash hq isSep_backslash hnames
    hentries fun m hm => by cases hm
  rwa [if_pos ⟨rfl, trail_append hfield [backslash, backslash, q, backslash]⟩] at hread

/-- A longer device path is read back unless it is unsettled. -/
theorem stable_deep {q : ℕ} {e : Text} (hq : q = dot ∨ q = 0x3F)
    (hE : Normal isSep false (e :: E)) (hlast : LastOk E)
    (hsettled : ¬ Unsettled (shareRoot [q] e ++ [backslash].intercalate E)) :
    Reads (fromWin32String (shareRoot [q] e ++ [backslash].intercalate E)) (shareRoot [q] e) E := by
  have hfields := hE.isField rfl
  have hfield := hfields e (List.mem_cons_self ..)
  have hrest : ∀ m ∈ E, IsField isSep m := fun m hm => hfields m (List.mem_cons_of_mem e hm)
  rw [shareRoot_append] at hsettled
  by_cases hnames : NamesDevice (e ++ ([backslash] ++ [backslash].intercalate E))
  · obtain ⟨rfl, ⟨d, hd, rfl⟩, -⟩ := device_of_names hq hfield (by simp [isSep]) hsettled hnames
    obtain ⟨k, names, hsplit, hk, hnormal⟩ := hE
    rw [hk rfl, List.replicate_zero, List.nil_append] at hsplit
    have hE : Normal isSep false E :=
      ⟨0, E, rfl, fun _ => rfl, fun m hm => hnormal m (hsplit ▸ List.mem_cons_of_mem _ hm)⟩
    exact stable_device hd hE hlast
  · have hentries : normalizeSegments false
        (fields isSep (e ++ ([backslash] ++ [backslash].intercalate E))) = e :: E := by
      rw [fields_append hfield (by simp [isSep]), List.singleton_append, fields_body_cons hrest]
      exact normalizeSegments_of_normal hE
    have hread := reads_local isSep_backslash isSep_backslash hq isSep_backslash hnames
      hentries hlast
    rw [if_neg] at hread
    · rw [shareRoot_append]
      exact hread
    · rintro ⟨rfl, htrail⟩
      have hend : trail ((backslash :: backslash :: q :: backslash :: e) ++ [backslash])
          = [backslash] := by
        rw [trail, lastOf, List.reverse_concat]
        rfl
      exact List.cons_ne_nil _ _ (hend.symm.trans htrail)

/-! ## Printing again -/

theorem intercalate_dot (hne : E ≠ []) :
    [backslash].intercalate ([dot] :: E) = dot :: backslash :: [backslash].intercalate E := by
  obtain ⟨e, es, rfl⟩ := List.exists_cons_of_ne_nil hne
  rw [List.intercalate_cons_cons]
  rfl

/-- A relative path is printed as it was read, marked where it must be. -/
theorem text_of_relative {t : Text} (hne : E ≠ []) (hunmark : unmark t = [backslash].intercalate E)
    (h : Reads (fromWin32String t) [] (if Marked t then [dot] :: E else E)) :
    toWin32String (fromWin32String t)
      = if Marked t then [dot, backslash] ++ unmark t else unmark t := by
  rw [h.win32, hunmark]
  split
  · rw [if_neg (by simp), intercalate_dot hne]
    rfl
  · rw [if_neg fun hh => hne hh.2]
    rfl

/-- A path with a root is printed as it was read. -/
theorem text_of_root {c : ℕ} {l : Text} (hc : c ≠ dot)
    (h : Reads (fromWin32String (c :: l ++ [backslash].intercalate E)) (c :: l) E) :
    toWin32String (fromWin32String (c :: l ++ [backslash].intercalate E))
      = unmark (c :: l ++ [backslash].intercalate E) := by
  rw [h.win32, if_neg fun hh => List.cons_ne_nil _ _ hh.1, unmark_of_head]
  exact fun hh => hc (Option.some.inj hh)

theorem letter_ne_dot {c : ℕ} (hc : isDriveLetter c = true) : c ≠ dot := by
  rintro rfl
  exact absurd hc (by decide)

theorem glue_ne_nil (l : Text) (es : List Text) : glue l es ≠ [] := by
  cases es <;> exact List.cons_ne_nil _ _

/-- Glueing a device on leaves the last entry as it was. -/
theorem lastOk_of_glue {l : Text} (hE : ∀ e ∈ E, IsField isSep e) (h : LastOk (glue l E)) :
    LastOk E := by
  rcases E with _ | ⟨e, _ | ⟨e', es⟩⟩
  · exact fun m hm => by cases hm
  · intro m hm
    obtain rfl : e = m := Option.some.inj hm
    have hend : (l ++ e).getLast? ≠ some dot := h _ rfl
    rwa [List.getLast?_append_of_ne_nil _ (hE e (List.mem_cons_self ..)).1] at hend
  · rw [glue, lastOk_cons (List.cons_ne_nil _ _)] at h
    exact (lastOk_cons (List.cons_ne_nil _ _)).mpr h

/-- What is printed, read and printed again. -/
theorem printed_stable {root : Text} {es : List Text} (h : Printed root es) (hlast : LastOk es)
    (hne : ¬ (root = [] ∧ es = []))
    (hsettled : ¬ Unsettled (root ++ [backslash].intercalate es)) :
    toWin32String (fromWin32String (root ++ [backslash].intercalate es))
      = if root = [] ∧ Marked (root ++ [backslash].intercalate es) then
          [dot, backslash] ++ unmark (root ++ [backslash].intercalate es)
        else unmark (root ++ [backslash].intercalate es) := by
  -- one case for each form that the printer writes
  cases h with
  | empty => exact absurd ⟨rfl, rfl⟩ hne
  | @single c hsep hdot =>
    have hshort : ¬ Marked [c] := fun hmarked => absurd hmarked.1 (by simp)
    have hhead : ([c] : Text).head? ≠ some dot := fun hh => hdot (Option.some.inj hh)
    rw [List.nil_append, List.intercalate_singleton, if_neg fun hh => hshort hh.2,
      (reads_single hsep hdot).win32, unmark_of_head hhead]
    simp
  | @marked E hE hE' =>
    rw [List.nil_append, intercalate_dot hE', if_congr (and_iff_right rfl) rfl rfl]
    exact text_of_relative hE' (unmark_mark _) (stable_marked hE hE' ((lastOk_cons hE').mp hlast))
  | plain hE hE' hdrive hcolon =>
    rw [List.nil_append] at hsettled ⊢
    rw [if_congr (and_iff_right rfl) rfl rfl]
    obtain ⟨hread, hunmark⟩ := stable_plain hE hE' hdrive hcolon hlast hsettled
    exact text_of_relative hE' hunmark hread
  | @named d E hd hE =>
    -- the device and the first entry are one entry when read again
    have hglue := glue_ne_nil (d ++ [colon]) E
    have hlast' := (lastOk_cons hglue).mp hlast
    rw [List.nil_append] at hsettled ⊢
    have hnormal := normal_glue hd hE (lastOk_of_glue (hE.isField rfl) hlast') hsettled
    rw [intercalate_dot hglue, if_congr (and_iff_right rfl) rfl rfl]
    exact text_of_relative hglue (unmark_mark _) (stable_marked hnormal hglue hlast')
  | driveRelative hc hE =>
    rw [if_neg fun hh => List.cons_ne_nil _ _ hh.1]
    exact text_of_root (letter_ne_dot hc)
      (reads_drive_relative hc (not_startsSep_printed hE) (entries_printed hE) hlast)
  | driveAbsolute hc hE =>
    rw [if_neg fun hh => List.cons_ne_nil _ _ hh.1]
    exact text_of_root (letter_ne_dot hc)
      (reads_drive_absolute hc rfl (entries_printed hE) hlast)
  | root hE =>
    rw [if_neg fun hh => List.cons_ne_nil _ _ hh.1]
    exact text_of_root (by decide) (stable_root hE hlast)
  | share hfirst hsecond hnot hE =>
    rw [if_neg fun hh => List.cons_ne_nil _ _ hh.1]
    exact text_of_root (by decide) (stable_share hfirst hsecond hnot hE hlast)
  | device hd hE =>
    rw [if_neg fun hh => List.cons_ne_nil _ _ hh.1]
    exact text_of_root (by decide) (stable_device hd hE hlast)
  | @alone q e hq he =>
    rw [if_neg fun hh => List.cons_ne_nil _ _ hh.1]
    have hnil : aloneRoot q e ++ [backslash].intercalate [] = aloneRoot q e := List.append_nil _
    have hread : Reads (fromWin32String (aloneRoot q e ++ [backslash].intercalate []))
        (aloneRoot q e) [] := by
      rw [hnil] at hsettled ⊢
      exact stable_alone hq he hsettled
    exact text_of_root (by decide) hread
  | deep hq hE =>
    rw [if_neg fun hh => List.cons_ne_nil _ _ hh.1]
    exact text_of_root (by decide) (stable_deep hq hE hlast hsettled)

/-- Printing is stable: in POSIX syntax always, in Windows syntax for a settled text, but for the
    leading `.\`, for which the printed text is tested again. -/
theorem normalization_stable (s : Text) :
    (¬ EndsInDot isSlash s →
      toPosixString (fromPosixString (toPosixString (fromPosixString s)))
          = toPosixString (fromPosixString s) ∧
        Printable isSlash slash (fromPosixString s) (toPosixString (fromPosixString s)) ∧
        PosixDots (fromPosixString s)) ∧
    (¬ EndsInDot isSep s →
      (¬ Unsettled (toWin32String (fromWin32String s)) →
        toWin32String (fromWin32String (toWin32String (fromWin32String s)))
          = if (fromWin32String s).root = [] ∧ Marked (toWin32String (fromWin32String s)) then
              [dot, backslash] ++ unmark (toWin32String (fromWin32String s))
            else unmark (toWin32String (fromWin32String s))) ∧
        Printable isSep backslash (fromWin32String s) (toWin32String (fromWin32String s)) ∧
        Win32Dots (fromWin32String s)) := by
  refine ⟨fun hs => ⟨posix_stable hs, posix_printable hs⟩, fun hs => ?_⟩
  obtain ⟨root, es, hread, hprinted, hlast⟩ := printed_of hs
  refine ⟨fun hsettled => ?_, ⟨?_, ?_⟩, printed_dots hread hprinted⟩
  · rw [hread.win32] at hsettled ⊢
    rw [hread.root_eq]
    by_cases hempty : root = [] ∧ es = []
    · have hshort : ¬ Marked [dot] := fun hmarked => absurd hmarked.1 (by simp)
      rw [if_pos hempty, if_neg fun hh => hshort hh.2]
      decide
    · rw [if_neg hempty] at hsettled ⊢
      exact printed_stable hprinted hlast hempty hsettled
  · rw [hread.win32, hread.root_eq, hread.parts_eq]
  · rw [hread.parts_eq]
    exact printed_fields hprinted

/-- Only a text with a colon is unsettled. -/
theorem colon_of_unsettled {t : Text} (h : Unsettled t) : colon ∈ t := by
  rcases h with ⟨d, r, rfl, -⟩ | ⟨d, r, rfl, -⟩ | ⟨l, rfl, ⟨d, r, rfl, -⟩⟩ | ⟨d, r, rfl, -⟩ <;> simp

/-- A path on a share, with separators of either kind. -/
theorem normalization_stable_share :
    toPosixString (fromPosixString (text "/a/b")) = text "/a/b" ∧
      toWin32String (fromWin32String (text "\\\\srv\\share\\a\\b"))
        = text "\\\\srv\\share\\a\\b" := by
  have h := normalization_stable (text "//srv\\share/../a/./b")
  have hposix := (h.1 (by decide)).1
  have hwin32 := (h.2 (by decide)).1 (mt colon_of_unsettled (by decide))
  have hroot : ¬ (fromWin32String (text "//srv\\share/../a/./b")).root = [] := by decide
  rw [if_neg fun hh => hroot hh.1] at hwin32
  exact ⟨hposix, hwin32⟩

/-- The leading `.\` that keeps a text from a device is taken away again. -/
theorem win32_marker_moves : ¬ EndsInDot isSep (text "CONx") ∧
    toWin32String (fromWin32String (text "CONx")) = text ".\\CONx" ∧
    toWin32String (fromWin32String (text ".\\CONx")) = text "CONx" := by
  decide

end SystemPath

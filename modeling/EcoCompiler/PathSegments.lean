import EcoCompiler.Fields
import EcoCompiler.Path

/-! # The entries of a path

    * `normalizeSegments_normal`, `normalizeSegments_of_normal` — normalizing ends in a list that it
      leaves alone;
    * `parts_fromParts` — a last entry is put together again;
    * `posix_reads`, `posix_stable` — paths in POSIX syntax. -/

namespace SystemPath

open Fields

variable {p : ℕ → Bool} {above : Bool}

/-- An entry that names something. -/
def IsName (p : ℕ → Bool) (e : Text) : Prop := IsField p e ∧ e ≠ [dot] ∧ e ≠ [dot, dot]

/-- Normalized entries: `..` at the start only, and only above no root. -/
def Normal (p : ℕ → Bool) (above : Bool) (es : List Text) : Prop :=
  ∃ k names, es = List.replicate k [dot, dot] ++ names ∧ (above = false → k = 0) ∧
    ∀ e ∈ names, IsName p e

/-- The last entry of a text ends in a dot. -/
def EndsInDot (p : ℕ → Bool) (s : Text) : Prop :=
  ∃ e ∈ (fields p s).getLast?, e.getLast? = some dot

instance (p : ℕ → Bool) (s : Text) : Decidable (EndsInDot p s) :=
  inferInstanceAs (Decidable (∃ e ∈ (fields p s).getLast?, e.getLast? = some dot))

/-! ## Normalizing -/

/-- Empty segments change nothing. -/
theorem normalizeSegments_filter (above : Bool) (l : List Text) :
    normalizeSegments above (l.filter (· ≠ [])) = normalizeSegments above l := by
  rw [normalizeSegments, normalizeSegments, List.foldl_filter]
  congr 1
  refine List.foldl_ext _ _ _ fun stack segment _ => ?_
  by_cases hnil : segment = []
  · simp [hnil, normalizeStep]
  · simp [hnil]

/-- The segment `.` changes nothing. -/
theorem normalizeStep_dot (above : Bool) (stack : List Text) :
    normalizeStep above stack [dot] = stack := if_pos (Or.inr rfl)

/-- A name is pushed. -/
theorem normalizeStep_name {e : Text} (he : IsName p e) (above : Bool) (stack : List Text) :
    normalizeStep above stack e = e :: stack := by
  obtain ⟨⟨hne, -⟩, hdot, hdots⟩ := he
  rw [normalizeStep.eq_def, if_neg (not_or.mpr ⟨hne, hdot⟩), if_neg hdots]

/-- `..` is pushed where no name is left to take away and no root stops it. -/
theorem normalizeStep_dots (above : Bool) {stack : List Text}
    (h : ∀ e ∈ stack.head?, e = [dot, dot]) (habove : stack = [] → above = true) :
    normalizeStep above stack [dot, dot] = [dot, dot] :: stack := by
  rw [normalizeStep.eq_def, if_neg (by simp), if_pos rfl]
  cases stack with
  | nil => exact if_pos (habove rfl)
  | cons top rest => exact if_pos (h top rfl)

/-- The stack of the entries so far, the last one on top. -/
def Stacked (p : ℕ → Bool) (above : Bool) (stack : List Text) : Prop :=
  Normal p above stack.reverse

/-- Pushing a name keeps the stack normal. -/
theorem stacked_name {stack : List Text} {e : Text} (h : Stacked p above stack) (he : IsName p e) :
    Stacked p above (e :: stack) := by
  obtain ⟨k, names, heq, hk, hnames⟩ := h
  refine ⟨k, names ++ [e], by rw [List.reverse_cons, heq, List.append_assoc], hk, fun n hn => ?_⟩
  rcases List.mem_append.mp hn with hn | hn
  · exact hnames n hn
  · rw [List.mem_singleton.mp hn]
    exact he

/-- `..` keeps the stack normal. -/
theorem stacked_dots {stack : List Text} (h : Stacked p above stack) :
    Stacked p above (normalizeStep above stack [dot, dot]) := by
  obtain ⟨k, names, heq, hk, hnames⟩ := h
  rw [normalizeStep.eq_def, if_neg (by simp), if_pos rfl]
  have hstack := congrArg List.reverse heq
  rw [List.reverse_reverse, List.reverse_append, List.reverse_replicate] at hstack
  rw [hstack]
  rcases List.eq_nil_or_concat names with rfl | ⟨names, n, rfl⟩
  · rw [List.reverse_nil, List.nil_append]
    cases k with
    | zero =>
      cases above with
      | true => exact ⟨1, [], rfl, fun hh => absurd hh (by decide), fun n hn => absurd hn (by simp)⟩
      | false => exact ⟨0, [], rfl, fun _ => rfl, fun n hn => absurd hn (by simp)⟩
    | succ k =>
      refine ⟨k + 2, [], ?_, fun hh => absurd (hk hh) (Nat.succ_ne_zero k),
        fun n hn => absurd hn (by simp)⟩
      rw [List.replicate_succ]
      dsimp only
      rw [if_pos rfl, ← List.replicate_succ, ← List.replicate_succ, List.append_nil]
      exact List.reverse_replicate
  -- the entry before is a name, and is cancelled
  · have hn := hnames n (by simp)
    rw [List.concat_eq_append, List.reverse_append, List.reverse_singleton, List.singleton_append,
      List.cons_append]
    dsimp only
    rw [if_neg hn.2.2]
    exact ⟨k, names, by simp, hk, fun m hm => hnames m (by simp [hm])⟩

/-- Every run of segments keeps the stack normal. -/
theorem stacked_foldl {segments stack : List Text} (hsegments : ∀ e ∈ segments, IsField p e)
    (h : Stacked p above stack) : Stacked p above (segments.foldl (normalizeStep above) stack) := by
  induction segments generalizing stack with
  | nil => exact h
  | cons e segments ih =>
    refine ih (fun m hm => hsegments m (List.mem_cons_of_mem e hm)) ?_
    by_cases hdot : e = [dot]
    · rw [hdot, normalizeStep_dot]
      exact h
    by_cases hdots : e = [dot, dot]
    · rw [hdots]
      exact stacked_dots h
    · have he : IsName p e := ⟨hsegments e (List.mem_cons_self ..), hdot, hdots⟩
      rw [normalizeStep_name he]
      exact stacked_name h he

/-- Normalizing normalizes. -/
theorem normalizeSegments_normal {segments : List Text} (h : ∀ e ∈ segments, IsField p e) :
    Normal p above (normalizeSegments above segments) :=
  stacked_foldl h ⟨0, [], rfl, fun _ => rfl, fun n hn => absurd hn (by simp)⟩

theorem foldl_dots (k : ℕ) (hk : above = false → k = 0) :
    (List.replicate k [dot, dot]).foldl (normalizeStep above) [] = List.replicate k [dot, dot] := by
  induction k with
  | zero => rfl
  | succ k ih =>
    have habove : above = true := by
      cases above with
      | true => rfl
      | false => exact absurd (hk rfl) (Nat.succ_ne_zero k)
    have hnot : above = false → k = 0 := fun hh => absurd (hh.symm.trans habove) (by decide)
    rw [List.replicate_succ', List.foldl_append, ih hnot, List.foldl_cons, List.foldl_nil,
      normalizeStep_dots]
    · rw [← List.replicate_succ, List.replicate_succ']
    · intro e he
      exact List.eq_of_mem_replicate (List.mem_of_mem_head? he)
    · exact fun _ => habove

theorem foldl_names {names : List Text} (h : ∀ e ∈ names, IsName p e) (stack : List Text) :
    names.foldl (normalizeStep above) stack = names.reverse ++ stack := by
  induction names generalizing stack with
  | nil => rfl
  | cons e names ih =>
    rw [List.foldl_cons, normalizeStep_name (h e (List.mem_cons_self ..)),
      ih fun m hm => h m (List.mem_cons_of_mem e hm), List.reverse_cons, List.append_assoc]
    rfl

/-- Normalized entries are left alone. -/
theorem normalizeSegments_of_normal {es : List Text} (h : Normal p above es) :
    normalizeSegments above es = es := by
  obtain ⟨k, names, rfl, hk, hnames⟩ := h
  rw [normalizeSegments, List.foldl_append, foldl_dots k hk, foldl_names hnames]
  simp

/-- A leading `.` changes nothing. -/
theorem normalizeSegments_dot (above : Bool) (es : List Text) :
    normalizeSegments above ([dot] :: es) = normalizeSegments above es := by
  rw [normalizeSegments, List.foldl_cons, normalizeStep_dot, normalizeSegments]

/-- A name at the end stays there. -/
theorem normalizeSegments_last (above : Bool) {e : Text} (he : IsName p e) (es : List Text) :
    ∃ init, normalizeSegments above (es ++ [e]) = init ++ [e] := by
  rw [normalizeSegments, List.foldl_append, List.foldl_cons, List.foldl_nil, normalizeStep_name he,
    List.reverse_cons]
  exact ⟨_, rfl⟩

theorem Normal.isField {es : List Text} (h : Normal p above es) (hdot : p dot = false) :
    ∀ e ∈ es, IsField p e := by
  obtain ⟨k, names, rfl, -, hnames⟩ := h
  intro e he
  rcases List.mem_append.mp he with he | he
  · rw [List.eq_of_mem_replicate he]
    exact ⟨List.cons_ne_nil _ _, fun c hc => by simp at hc; rw [hc, hdot]⟩
  · exact (hnames e he).1

/-- Normalized entries do not start with `.`. -/
theorem Normal.head_ne_dot {es : List Text} (h : Normal p above es) : es.head? ≠ some [dot] := by
  obtain ⟨k, names, rfl, -, hnames⟩ := h
  cases k with
  | zero =>
    intro hhead
    exact (hnames _ (List.mem_of_mem_head? hhead)).2.1 rfl
  | succ k => simp [List.replicate_succ]

/-! ## The last entry -/

theorem indexes_append (target i : ℕ) (a b : Text) :
    indexes target i (a ++ b) = indexes target i a ++ indexes target (i + a.length) b := by
  induction a generalizing i with
  | nil => rfl
  | cons c a ih =>
    have hlen : i + (c :: a).length = i + 1 + a.length := by
      rw [List.length_cons]
      omega
    rw [List.cons_append, indexes, indexes, ih, hlen]
    split <;> rfl

theorem indexes_of_notMem {target : ℕ} {l : Text} (h : target ∉ l) (i : ℕ) :
    indexes target i l = [] := by
  induction l generalizing i with
  | nil => rfl
  | cons c l ih =>
    obtain ⟨hc, hl⟩ := List.ne_and_not_mem_of_not_mem_cons h
    rw [indexes, if_neg fun heq => hc heq.symm, ih hl]

/-- A base name without a dot has no extension. -/
theorem splitExtension_notMem {base : Text} (h : dot ∉ base) :
    splitExtension base = (base, []) := by
  rw [splitExtension, indexes_of_notMem h]
  rfl

/-- An entry is cut before its last dot. -/
theorem splitExtension_append {a b : Text} (hb : dot ∉ b) : splitExtension (a ++ dot :: b)
    = if a = [] ∨ a ++ dot :: b = [dot, dot] then (a ++ dot :: b, []) else (a, dot :: b) := by
  have hlast : (indexes dot 0 (a ++ dot :: b)).reverse
      = a.length :: (indexes dot 0 a).reverse := by
    rw [indexes_append, indexes, if_pos rfl, indexes_of_notMem hb, List.reverse_append,
      Nat.zero_add]
    rfl
  rw [splitExtension, hlast]
  dsimp only
  rw [List.take_left, List.drop_left]
  exact if_congr (or_congr_left List.length_eq_zero_iff) rfl rfl

/-- The last dot of a text. -/
theorem exists_last_dot {l : Text} (h : dot ∈ l) : ∃ a b, l = a ++ dot :: b ∧ dot ∉ b := by
  induction l with
  | nil => cases h
  | cons c l ih =>
    by_cases hl : dot ∈ l
    · obtain ⟨a, b, rfl, hb⟩ := ih hl
      exact ⟨c :: a, b, rfl, hb⟩
    · rcases List.mem_cons.mp h with rfl | hmem
      · exact ⟨[], l, rfl, hl⟩
      · exact absurd hmem hl

theorem filenameWithExtension_of_split {base name ext : Text} (root : Text)
    (directory : List Text) (h : splitExtension base = (name, ext)) :
    filenameWithExtension (fromParts root directory base)
      = if ext.drop 1 = [] then if name = [dot] ∧ ext = [] then [] else name
        else (if name = [dot] ∧ ext = [] then [] else name) ++ [dot] ++ ext.drop 1 := by
  rw [filenameWithExtension, fromParts, h]

/-- Unless it ends in a dot, the base name is split and put together again. -/
theorem filenameWithExtension_fromParts (root : Text) (directory : List Text) {base : Text}
    (hend : base.getLast? ≠ some dot) :
    filenameWithExtension (fromParts root directory base) = base := by
  by_cases hdot : dot ∈ base
  · obtain ⟨a, b, rfl, hb⟩ := exists_last_dot hdot
    have hne : b ≠ [] := by
      rintro rfl
      exact hend (by simp)
    have hsplit := splitExtension_append (a := a) hb
    split_ifs at hsplit
    · rw [filenameWithExtension_of_split root directory hsplit, if_pos List.drop_nil, if_neg]
      rintro ⟨heq, -⟩
      have hlen := congrArg List.length heq
      have hpos := List.length_pos_of_ne_nil hne
      simp only [List.length_append, List.length_cons, List.length_nil] at hlen
      omega
    · have hdrop : (dot :: b).drop 1 ≠ [] := hne
      rw [filenameWithExtension_of_split root directory hsplit, if_neg hdrop,
        if_neg fun hh => List.cons_ne_nil _ _ hh.2, List.append_assoc]
      rfl
  · rw [filenameWithExtension_of_split root directory (splitExtension_notMem hdot),
      if_pos List.drop_nil, if_neg]
    rintro ⟨rfl, -⟩
    exact hdot (by simp)

theorem fromParts_directory (root : Text) (directory : List Text) (base : Text) :
    (fromParts root directory base).directory = directory := rfl

/-- A last entry is put together again. -/
theorem parts_fromParts (root : Text) (directory : List Text) {base : Text} (hne : base ≠ [])
    (hend : base.getLast? ≠ some dot) :
    parts (fromParts root directory base) = directory ++ [base] := by
  rw [parts, filenameWithExtension_fromParts root directory hend, fromParts_directory]
  exact if_neg hne

/-- The dot at the end of an entry is dropped. -/
theorem parts_fromParts_dot (root : Text) (directory : List Text) {base : Text} (hne : base ≠ [])
    (hbase : base ≠ [dot]) :
    parts (fromParts root directory (base ++ [dot])) = directory ++ [base] := by
  have hsplit : splitExtension (base ++ [dot]) = (base, [dot]) := by
    rw [splitExtension_append (b := []) (by simp), if_neg]
    rintro (heq | heq)
    · exact hne heq
    · exact hbase (List.append_inj_left' heq rfl)
  have hname : filenameWithExtension (fromParts root directory (base ++ [dot])) = base := by
    rw [filenameWithExtension_of_split root directory hsplit]
    simp
  rw [parts, hname, fromParts_directory]
  exact if_neg hne

/-- A path is empty when it has neither root nor parts. -/
theorem isEmpty_iff (path : Path) : isEmpty path = true ↔ path.root = [] ∧ parts path = [] := by
  obtain ⟨root, directory, filename, ext⟩ := path
  rw [isEmpty, parts, filenameWithExtension]
  by_cases hext : ext = [] <;> by_cases hname : filename = [] <;> simp [hext, hname]

/-! ## POSIX syntax -/

/-- The separator of POSIX syntax. -/
def isSlash (c : ℕ) : Bool := c == slash

theorem exists_last {es : List Text} (hne : es ≠ []) : ∃ init e, es = init ++ [e] := by
  rcases List.eq_nil_or_concat es with h | ⟨init, e, h⟩
  · exact absurd h hne
  · exact ⟨init, e, by rw [h, List.concat_eq_append]⟩

/-- The last entry of a text that does not end in a dot is a name. -/
theorem isName_of_last {s : Text} (hs : ¬ EndsInDot p s) {init : List Text} {e : Text}
    (h : fields p s = init ++ [e]) : IsName p e ∧ e.getLast? ≠ some dot := by
  have hlast : e ∈ (fields p s).getLast? := by
    rw [h, List.getLast?_concat]
    exact rfl
  have hend : e.getLast? ≠ some dot := fun hh => hs ⟨e, hlast, hh⟩
  have hmem : e ∈ fields p s := by
    rw [h]
    exact List.mem_append_right init (List.mem_singleton_self e)
  refine ⟨⟨(isField_of_mem hmem).1, ?_, ?_⟩, hend⟩
  · rintro rfl
    exact hend rfl
  · rintro rfl
    exact hend rfl

/-- What is read from a text. -/
structure Reads (path : Path) (root : Text) (es : List Text) : Prop where
  root_eq : path.root = root
  parts_eq : parts path = es

/-- How a path is written, from its root and entries. -/
theorem Reads.posix {path : Path} {root : Text} {es : List Text} (h : Reads path root es)
    (hroot : root = [] ∨ root = [slash]) : toPosixString path
      = if root = [] ∧ es = [] then [dot] else root ++ [slash].intercalate es := by
  have hempty := isEmpty_iff path
  rw [h.root_eq, h.parts_eq] at hempty
  have hother : ¬ (path.root ≠ [] ∧ path.root ≠ [slash]) := by
    rw [h.root_eq]
    exact fun hh => hroot.elim hh.1 hh.2
  rw [toPosixString, if_congr hempty rfl rfl, if_neg hother, format, h.root_eq, h.parts_eq]

/-- The same with backslashes. -/
theorem Reads.win32 {path : Path} {root : Text} {es : List Text} (h : Reads path root es) :
    toWin32String path
      = if root = [] ∧ es = [] then [dot] else root ++ [backslash].intercalate es := by
  have hempty := isEmpty_iff path
  rw [h.root_eq, h.parts_eq] at hempty
  rw [toWin32String, if_congr hempty rfl rfl, format, h.root_eq, h.parts_eq]

/-- The root of a text in POSIX syntax. -/
def posixRoot (s : Text) : Text := if [slash] <+: s then [slash] else []

/-- The entry for a leading `./`. -/
def dotPrefix (s : Text) : List Text := if [dot, slash] <+: s then [[dot]] else []

/-- The entries of a POSIX path. -/
def posixEntries (s : Text) : List Text :=
  dotPrefix s ++ normalizeSegments (posixRoot s = []) (fields isSlash s)

/-- The root and the entries of a path read from a text. -/
theorem posix_reads {s : Text} (hs : ¬ EndsInDot isSlash s) :
    Reads (fromPosixString s) (posixRoot s) (posixEntries s) := by
  have hsegments : normalizeSegments (posixRoot s = []) (s.splitOn slash)
      = normalizeSegments (posixRoot s = []) (fields isSlash s) :=
    (normalizeSegments_filter _ _).symm
  rw [fromPosixString, ← posixRoot, ← dotPrefix, hsegments, posixEntries]
  rcases eq_or_ne (fields isSlash s) [] with hnil | hne
  · rw [hnil]
    exact ⟨rfl, by simp [normalizeSegments, unsnoc, parts, filenameWithExtension]⟩
  · obtain ⟨init, e, heq⟩ := exists_last hne
    obtain ⟨he, hend⟩ := isName_of_last hs heq
    obtain ⟨init', hnormal⟩ := normalizeSegments_last (posixRoot s = []) he init
    rw [heq, hnormal, unsnoc, List.reverse_concat]
    dsimp only
    rw [List.reverse_reverse]
    exact ⟨rfl, by rw [parts_fromParts _ _ he.1.1 hend, List.append_assoc]⟩

/-- The entries read are normalized. -/
theorem posixEntries_normal (s : Text) : Normal isSlash (posixRoot s = [])
    (normalizeSegments (posixRoot s = []) (fields isSlash s)) :=
  normalizeSegments_normal fun _ he => (isField_of_mem he).1

theorem fields_of_dotPrefix {r : Text} :
    fields isSlash (dot :: slash :: r) = [dot] :: fields isSlash r := by
  have hdot : IsField isSlash [dot] := ⟨List.cons_ne_nil _ _, by simp [isSlash]⟩
  refine (fields_append hdot (r := slash :: r) (by simp [isSlash])).trans ?_
  rw [fields_cons rfl]

/-- There is nothing to print, or a last entry that does not end in a dot. -/
theorem posixEntries_last {s : Text} (hs : ¬ EndsInDot isSlash s) : posixEntries s = [] ∨
    ∃ init e, posixEntries s = init ++ [e] ∧ init ++ [e] ≠ [[dot]] ∧ e.getLast? ≠ some dot := by
  rcases eq_or_ne (fields isSlash s) [] with hnil | hne
  · refine Or.inl ?_
    have hprefix : ¬ [dot, slash] <+: s := by
      rintro ⟨r, rfl⟩
      have hfields := fields_of_dotPrefix (r := r)
      exact List.cons_ne_nil _ _ (hfields.symm.trans hnil)
    rw [posixEntries, dotPrefix, if_neg hprefix, hnil]
    rfl
  · obtain ⟨init, e, heq⟩ := exists_last hne
    obtain ⟨he, hend⟩ := isName_of_last hs heq
    obtain ⟨init', hnormal⟩ := normalizeSegments_last (posixRoot s = []) he init
    refine Or.inr ⟨dotPrefix s ++ init', e, ?_, ?_, hend⟩
    · rw [posixEntries, heq, hnormal, List.append_assoc]
    · intro hdot
      have hlast := congrArg List.getLast? hdot
      rw [List.getLast?_concat] at hlast
      exact he.2.1 (Option.some.inj hlast)

theorem isField_posixEntries {s : Text} : ∀ e ∈ posixEntries s, IsField isSlash e := by
  intro e he
  rcases List.mem_append.mp he with he | he
  · rw [dotPrefix] at he
    split at he
    · rw [List.mem_singleton.mp he]
      exact ⟨List.cons_ne_nil _ _, by simp [isSlash]⟩
    · cases he
  · exact (posixEntries_normal s).isField rfl e he

/-- The text that is printed. -/
def posixText (s : Text) : Text := posixRoot s ++ [slash].intercalate (posixEntries s)

/-- The text written for a path has its entries for fields. -/
theorem fields_posixText (s : Text) : fields isSlash (posixText s) = posixEntries s := by
  have hfields := fields_intercalate (c := slash) rfl (@isField_posixEntries s)
  rw [posixText, posixRoot]
  split
  · exact (fields_cons rfl _).trans hfields
  · exact hfields

/-- The first unit of entries that are joined is that of the first entry. -/
theorem head_intercalate {es : List Text} (h : ∀ e ∈ es, IsField p e) (hne : es ≠ [])
    (sep r : Text) : ∃ c, (sep.intercalate es ++ r).head? = some c ∧ p c = false := by
  obtain ⟨e, es, rfl⟩ := List.exists_cons_of_ne_nil hne
  obtain ⟨he, hfield⟩ := h e (List.mem_cons_self ..)
  obtain ⟨c, e, rfl⟩ := List.exists_cons_of_ne_nil he
  refine ⟨c, ?_, hfield c (List.mem_cons_self ..)⟩
  cases es with
  | nil => simp
  | cons e' es => simp [List.intercalate_cons_cons]

/-- Writing and reading again keeps the root. -/
theorem posixRoot_posixText {s : Text} (hne : posixRoot s = [] → posixEntries s ≠ []) :
    posixRoot (posixText s) = posixRoot s := by
  by_cases hroot : [slash] <+: s
  · have heq : posixRoot s = [slash] := if_pos hroot
    rw [posixText, heq]
    exact if_pos ⟨_, rfl⟩
  · have heq : posixRoot s = [] := if_neg hroot
    obtain ⟨c, hhead, hc⟩ := head_intercalate isField_posixEntries (hne heq) [slash] []
    rw [List.append_nil] at hhead
    rw [posixText, heq, List.nil_append]
    refine if_neg ?_
    rintro ⟨r, hr⟩
    rw [← hr] at hhead
    obtain rfl : slash = c := Option.some.inj hhead
    exact absurd hc (by decide)

/-- Writing and reading again keeps the leading `.`. -/
theorem dotPrefix_posixText {s : Text} (hs : ¬ EndsInDot isSlash s)
    (hne : posixRoot s = [] → posixEntries s ≠ []) : dotPrefix (posixText s) = dotPrefix s := by
  have hfields := fields_posixText s
  have hroot := posixRoot_posixText hne
  by_cases hprefix : [dot, slash] <+: s
  · have heq : dotPrefix s = [[dot]] := if_pos hprefix
    have hnone : posixRoot s = [] := by
      obtain ⟨r, rfl⟩ := hprefix
      rfl
    rcases posixEntries_last hs with hnil | ⟨init, e, hentries, hlong, -⟩
    · exact absurd hnil (hne hnone)
    rw [heq]
    refine if_pos ?_
    rw [posixText, hnone, List.nil_append]
    rw [← hentries] at hlong
    rw [posixEntries, heq, List.singleton_append] at hlong ⊢
    have hrest : normalizeSegments (posixRoot s = []) (fields isSlash s) ≠ [] :=
      fun hnil => hlong (by rw [hnil])
    obtain ⟨e', es, hes⟩ := List.exists_cons_of_ne_nil hrest
    rw [hes, List.intercalate_cons_cons]
    exact ⟨_, rfl⟩
  · have heq : dotPrefix s = [] := if_neg hprefix
    rw [heq]
    refine if_neg ?_
    rintro ⟨r, hr⟩
    have hdot := fields_of_dotPrefix (r := r)
    rw [← hr] at hfields
    replace hfields := hdot.symm.trans hfields
    rw [posixEntries, heq] at hfields
    have hhead := (posixEntries_normal s).head_ne_dot
    rw [← List.nil_append (normalizeSegments _ _), ← hfields] at hhead
    exact hhead rfl

/-- Writing and reading again keeps the entries. -/
theorem posixEntries_posixText {s : Text} (hs : ¬ EndsInDot isSlash s)
    (hne : posixRoot s = [] → posixEntries s ≠ []) :
    posixEntries (posixText s) = posixEntries s := by
  rw [posixEntries, fields_posixText, posixRoot_posixText hne, dotPrefix_posixText hs hne,
    posixEntries, dotPrefix]
  split
  · simp only [List.cons_append, List.nil_append]
    rw [normalizeSegments_dot, normalizeSegments_of_normal (posixEntries_normal s)]
  · simp only [List.nil_append]
    rw [normalizeSegments_of_normal (posixEntries_normal s)]

/-- A path in POSIX syntax, printed and read again, is printed the same. -/
theorem posix_stable {s : Text} (hs : ¬ EndsInDot isSlash s) :
    toPosixString (fromPosixString (toPosixString (fromPosixString s)))
      = toPosixString (fromPosixString s) := by
  have hroot : ∀ l, posixRoot l = [] ∨ posixRoot l = [slash] := by
    intro l
    rw [posixRoot]
    split
    · exact Or.inr rfl
    · exact Or.inl rfl
  rw [(posix_reads hs).posix (hroot s)]
  split_ifs with hempty
  · decide
  · have hne : posixRoot s = [] → posixEntries s ≠ [] := fun hr he => hempty ⟨hr, he⟩
    have hs' : ¬ EndsInDot isSlash (posixText s) := by
      rintro ⟨e, he, hend⟩
      rw [fields_posixText] at he
      rcases posixEntries_last hs with hnil | ⟨init, e', hentries, -, hend'⟩
      · rw [hnil] at he
        cases he
      · rw [hentries, List.getLast?_concat] at he
        obtain rfl := Option.some.inj he
        exact hend' hend
    have hread := (posix_reads hs').posix (hroot _)
    rw [posixEntries_posixText hs hne, posixRoot_posixText hne, if_neg hempty] at hread
    exact hread

end SystemPath

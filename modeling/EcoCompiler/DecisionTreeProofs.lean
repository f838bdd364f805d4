import EcoCompiler.DecisionTreeSpec

/-! # A decision tree finds the first branch

    * `testToComparable_agree`: tests of one type with one key are passed by the same
      values;
    * `exists_passed`: complete tests are passed by every value;
    * `toDecisionTree_spec`: the tree of some rows exists, and takes each value to the
      first row that holds of it. -/

open TypedPath (ContainerHint Path)

namespace DecisionTree

variable {Γ : Universe} {t : Γ.Ty}

/-! ## Tests -/

/-- A test about the values of a type. -/
def TestTyped (Γ : Universe) (t : Γ.Ty) : Test → Prop
  | .IsCtor home name index numAlts _ =>
      ∃ union args c, Γ.shape t = .custom home union args ∧ union.alts[index]? = some c
        ∧ c.name = name ∧ numAlts = union.numAlts
  | .IsCons => ∃ a, Γ.shape t = .list a
  | .IsNil => ∃ a, Γ.shape t = .list a
  | .IsInt _ => Γ.shape t = .int
  | .IsChr _ => Γ.shape t = .chr
  | .IsStr _ => Γ.shape t = .str
  | .IsBool _ => ∃ union, Γ.shape t = .bool union

/-- The test of a typed pattern is one of its type. -/
theorem testTyped_of_typed {pattern : FlatPattern} {test : Test} (h : pattern.Typed Γ t)
    (ht : testOf pattern = some test) : TestTyped Γ t test := by
  cases pattern with
  | FAnything => cases ht
  | FCtor home name index numAlts opts args =>
      obtain rfl := Option.some.inj ht
      obtain ⟨union, args', c, tys, hs, hc, hname, hnum, -⟩ := h
      exact ⟨union, args', c, hs, hc, hname, hnum⟩
  | FNil => obtain rfl := Option.some.inj ht; exact h
  | FCons hd tl =>
      obtain rfl := Option.some.inj ht
      obtain ⟨a, hs, -⟩ := h
      exact ⟨a, hs⟩
  | FInt n => obtain rfl := Option.some.inj ht; exact h
  | FChr text => obtain rfl := Option.some.inj ht; exact h
  | FStr text => obtain rfl := Option.some.inj ht; exact h
  | FBool bool => obtain rfl := Option.some.inj ht; exact h

/-- A pattern needs tests when it has one. -/
theorem needsTests_iff {pattern : FlatPattern} :
    needsTests pattern = true ↔ ∃ test, testOf pattern = some test := by
  cases pattern <;> simp [needsTests, testOf]

/-! ### Values by type -/

theorem hasType_int {w : Value} (hs : Γ.shape t = .int) (hw : HasType Γ.shape w t) :
    ∃ n, w = .int n := by
  cases w with
  | int n => exact ⟨n, rfl⟩
  | ctor name ws =>
      rw [HasType, altsOf, hs] at hw
      obtain ⟨tys, hmem, -⟩ := hw
      cases hmem
  | chr key => rw [HasType, hs] at hw; cases hw
  | str key => rw [HasType, hs] at hw; cases hw
  | other id => rw [HasType, hs] at hw; cases hw

theorem hasType_chr {w : Value} (hs : Γ.shape t = .chr) (hw : HasType Γ.shape w t) :
    ∃ key, w = .chr key := by
  cases w with
  | chr key => exact ⟨key, rfl⟩
  | ctor name ws =>
      rw [HasType, altsOf, hs] at hw
      obtain ⟨tys, hmem, -⟩ := hw
      cases hmem
  | int n => rw [HasType, hs] at hw; cases hw
  | str key => rw [HasType, hs] at hw; cases hw
  | other id => rw [HasType, hs] at hw; cases hw

theorem hasType_str {w : Value} (hs : Γ.shape t = .str) (hw : HasType Γ.shape w t) :
    ∃ key, w = .str key := by
  cases w with
  | str key => exact ⟨key, rfl⟩
  | ctor name ws =>
      rw [HasType, altsOf, hs] at hw
      obtain ⟨tys, hmem, -⟩ := hw
      cases hmem
  | int n => rw [HasType, hs] at hw; cases hw
  | chr key => rw [HasType, hs] at hw; cases hw
  | other id => rw [HasType, hs] at hw; cases hw

/-- A value of a type with constructors is built with one of them. -/
theorem hasType_ctor {w : Value} (hs : Γ.shape t ≠ .int ∧ Γ.shape t ≠ .chr ∧ Γ.shape t ≠ .str
      ∧ Γ.shape t ≠ .other) (hw : HasType Γ.shape w t) :
    ∃ name ws tys, w = .ctor name ws ∧ (name, tys) ∈ altsOf Γ.shape t
      ∧ HaveTypes Γ.shape ws tys := by
  cases w with
  | ctor name ws =>
      rw [HasType] at hw
      obtain ⟨tys, hmem, hws⟩ := hw
      exact ⟨name, ws, tys, rfl, hmem, hws⟩
  | int n => rw [HasType] at hw; exact absurd hw hs.1
  | chr key => rw [HasType] at hw; exact absurd hw hs.2.1
  | str key => rw [HasType] at hw; exact absurd hw hs.2.2.1
  | other id => rw [HasType] at hw; exact absurd hw hs.2.2.2

/-- A value of a list type is empty, or a head and a tail. -/
theorem hasType_list {w : Value} {a : Γ.Ty} (hs : Γ.shape t = .list a)
    (hw : HasType Γ.shape w t) :
    w = .ctor nilName [] ∨ ∃ x xs, w = .ctor consName [x, xs] ∧ HasType Γ.shape x a
      ∧ HasType Γ.shape xs t := by
  obtain ⟨name, ws, tys, rfl, hmem, hws⟩ := hasType_ctor (by rw [hs]; simp) hw
  rw [altsOf, hs] at hmem
  rcases List.mem_pair.mp hmem with heq | heq
  · obtain ⟨rfl, rfl⟩ := Prod.mk.inj heq
    exact .inl (by rw [List.length_eq_zero_iff.mp (haveTypes_length hws)])
  · obtain ⟨rfl, rfl⟩ := Prod.mk.inj heq
    obtain ⟨x, ws, rfl, hx, hws⟩ := haveTypes_of_cons hws
    obtain ⟨xs, ws, rfl, hxs, hws⟩ := haveTypes_of_cons hws
    obtain rfl := List.length_eq_zero_iff.mp (haveTypes_length hws)
    exact .inr ⟨x, xs, rfl, hx, hxs⟩

/-- A value of a Bool type is one of two constructors. -/
theorem hasType_bool {w : Value} {union : Can.Union} (hs : Γ.shape t = .bool union)
    (hw : HasType Γ.shape w t) : ∃ bool, w = .ctor (boolName bool) [] := by
  obtain ⟨name, ws, tys, rfl, hmem, hws⟩ := hasType_ctor (by rw [hs]; simp) hw
  rw [altsOf, hs] at hmem
  rcases List.mem_pair.mp hmem with heq | heq
  · obtain ⟨rfl, rfl⟩ := Prod.mk.inj heq
    exact ⟨true, by rw [List.length_eq_zero_iff.mp (haveTypes_length hws)]⟩
  · obtain ⟨rfl, rfl⟩ := Prod.mk.inj heq
    exact ⟨false, by rw [List.length_eq_zero_iff.mp (haveTypes_length hws)]⟩

/-- A value of a union is one of its constructors with arguments of its types. -/
theorem hasType_custom {w : Value} {home : Can.ModuleName} {union : Can.Union}
    {args : List (List Γ.Ty)} (hs : Γ.shape t = .custom home union args)
    (hw : HasType Γ.shape w t) :
    ∃ (i : Nat) (c : Can.Ctor) (ws : List Value) (tys : List Γ.Ty), w = .ctor c.name ws
      ∧ union.alts[i]? = some c ∧ args[i]? = some tys ∧ HaveTypes Γ.shape ws tys := by
  obtain ⟨name, ws, tys, rfl, hmem, hws⟩ := hasType_ctor (by rw [hs]; simp) hw
  rw [altsOf, hs, List.mem_iff_getElem?] at hmem
  obtain ⟨i, hi⟩ := hmem
  obtain ⟨hname, htys⟩ := List.getElem?_zip_eq_some.mp hi
  rw [List.getElem?_map, Option.map_eq_some_iff] at hname
  obtain ⟨c, hc, rfl⟩ := hname
  exact ⟨i, c, ws, tys, rfl, hc, htys, hws⟩

/-- The constructors of a declared type are told apart by name. -/
theorem ctor_unique {home : Can.ModuleName} {union : Can.Union} {args : List (List Γ.Ty)}
    (hs : Γ.shape t = .custom home union args) {i j : Nat} {c d : Can.Ctor}
    (hc : union.alts[i]? = some c) (hd : union.alts[j]? = some d) (hname : c.name = d.name) :
    i = j := by
  have hi : (union.alts.map Can.Ctor.name)[i]? = some c.name := by
    rw [List.getElem?_map, hc]
    rfl
  have hj : (union.alts.map Can.Ctor.name)[j]? = some d.name := by
    rw [List.getElem?_map, hd]
    rfl
  exact (List.getElem?_inj (List.getElem?_eq_some_iff.mp hi).1 (Γ.custom t _ _ _ hs).names).mp
    (by rw [hi, hj, hname])

/-! ### Keys -/

/-- What follows the last slash of a text, and what comes before it. -/
private theorem split_last {a b c d : List Char} (hb : '/' ∉ b) (hd : '/' ∉ d)
    (h : a ++ '/' :: b = c ++ '/' :: d) : a = c ∧ b = d := by
  rcases List.append_eq_append_iff.mp h with ⟨m, hm, hrest⟩ | ⟨m, hm, hrest⟩
  · cases m with
    | nil =>
        rw [List.append_nil] at hm
        exact ⟨hm.symm, (List.cons.inj hrest).2⟩
    | cons x m =>
        obtain ⟨-, htail⟩ := List.cons.inj hrest
        rw [htail] at hb
        exact absurd (List.mem_append_right _ List.mem_cons_self) hb
  · cases m with
    | nil =>
        rw [List.append_nil] at hm
        exact ⟨hm, (List.cons.inj hrest).2.symm⟩
    | cons x m =>
        obtain ⟨-, htail⟩ := List.cons.inj hrest
        rw [htail] at hd
        exact absurd (List.mem_append_right _ List.mem_cons_self) hd

private theorem slash_not_mem_repr (n : Nat) : '/' ∉ n.repr.toList := by
  intro hm
  have hd : '/'.isDigit = true :=
    Nat.isDigit_of_mem_toDigits (by decide) (by decide) (Nat.toList_repr ▸ hm)
  exact absurd hd (by decide)

/-- The key of a constructor test tells its name, within one module. -/
theorem ctorKey_name {home : Can.ModuleName} {name name' : String}
    {index index' numAlts numAlts' : Nat} {opts opts' : Can.CtorOpts}
    (h : testToComparable (.IsCtor home name index numAlts opts)
      = testToComparable (.IsCtor home name' index' numAlts' opts')) : name = name' := by
  have hlist := congrArg String.toList h
  have hslash : "/".toList = ['/'] := rfl
  simp only [testToComparable, String.toList_append, hslash, ← List.append_cons] at hlist
  obtain ⟨hlist, -⟩ := split_last (slash_not_mem_repr _) (slash_not_mem_repr _) hlist
  obtain ⟨hlist, -⟩ := split_last (slash_not_mem_repr _) (slash_not_mem_repr _) hlist
  exact String.toList_inj.mp (List.append_cancel_left hlist)

/-- Texts that start alike go on alike. -/
private theorem append_cancel {a b c : String} (h : a ++ b = a ++ c) : b = c := by
  have hlist := congrArg String.toList h
  rw [String.toList_append, String.toList_append] at hlist
  exact String.toList_inj.mp (List.append_cancel_left hlist)

/-- The kind of values a test is about. -/
def kindOf : Test → Nat
  | .IsCtor _ _ _ _ _ => 0
  | .IsCons => 1
  | .IsNil => 1
  | .IsInt _ => 2
  | .IsChr _ => 3
  | .IsStr _ => 4
  | .IsBool _ => 5

/-- Tests of one type are about one kind of values. -/
theorem kindOf_eq {a b : Test} (ha : TestTyped Γ t a) (hb : TestTyped Γ t b) :
    kindOf a = kindOf b := by
  have hkind : ∀ {test : Test}, TestTyped Γ t test → kindOf test = match Γ.shape t with
      | .custom _ _ _ => 0
      | .list _ => 1
      | .int => 2
      | .chr => 3
      | .str => 4
      | .bool _ => 5
      | _ => 6 := by
    intro test h
    cases test with
    | IsCtor home name index numAlts opts => obtain ⟨union, args, c, hs, -⟩ := h; rw [hs]; rfl
    | IsCons => obtain ⟨e, hs⟩ := h; rw [hs]; rfl
    | IsNil => obtain ⟨e, hs⟩ := h; rw [hs]; rfl
    | IsInt n => rw [show Γ.shape t = .int from h]; rfl
    | IsChr text => rw [show Γ.shape t = .chr from h]; rfl
    | IsStr text => rw [show Γ.shape t = .str from h]; rfl
    | IsBool bool => obtain ⟨u, hs⟩ := h; rw [hs]; rfl
  rw [hkind ha, hkind hb]

/-- Tests of one type with one key are passed by the same values. -/
theorem testToComparable_agree {a b : Test} (ha : TestTyped Γ t a) (hb : TestTyped Γ t b)
    (hkey : testToComparable a = testToComparable b) : a.passes = b.passes := by
  have hkind := kindOf_eq ha hb
  cases a with
  | IsCtor home name index numAlts opts =>
      obtain ⟨union, args, c, hs, -⟩ := ha
      cases b <;> simp [kindOf] at hkind
      obtain ⟨union', args', c', hs', -⟩ := hb
      obtain ⟨rfl, rfl, rfl⟩ := Shape.custom.inj (hs.symm.trans hs')
      rw [ctorKey_name hkey]
      funext w
      cases w <;> rfl
  | IsCons =>
      cases b <;> simp [kindOf] at hkind
      · rfl
      · exact absurd hkey (by decide)
  | IsNil =>
      cases b <;> simp [kindOf] at hkind
      · exact absurd hkey (by decide)
      · rfl
  | IsInt n =>
      cases b <;> simp [kindOf] at hkind
      rw [Int.repr_injective (append_cancel hkey)]
  | IsChr text =>
      cases b <;> simp [kindOf] at hkind
      funext w
      cases w <;> simp only [Test.passes, append_cancel hkey]
  | IsStr text =>
      cases b <;> simp [kindOf] at hkind
      funext w
      cases w <;> simp only [Test.passes, append_cancel hkey]
  | IsBool bool =>
      cases b <;> simp [kindOf] at hkind
      rename_i bool'
      cases bool <;> cases bool' <;> first | rfl | exact absurd hkey (by decide)

/-- A test of a type is about each of its values. -/
theorem passes_defined {test : Test} {w : Value} (ht : TestTyped Γ t test)
    (hw : HasType Γ.shape w t) : ∃ b, test.passes w = some b := by
  cases test with
  | IsCtor home name index numAlts opts =>
      obtain ⟨union, args, c, hs, -⟩ := ht
      obtain ⟨i, d, ws, tys, rfl, -⟩ := hasType_custom hs hw
      exact ⟨_, rfl⟩
  | IsCons =>
      obtain ⟨a, hs⟩ := ht
      rcases hasType_list hs hw with rfl | ⟨x, xs, rfl, -⟩
      · exact ⟨false, by decide⟩
      · exact ⟨true, rfl⟩
  | IsNil =>
      obtain ⟨a, hs⟩ := ht
      rcases hasType_list hs hw with rfl | ⟨x, xs, rfl, -⟩
      · exact ⟨true, by decide⟩
      · exact ⟨false, rfl⟩
  | IsInt n =>
      obtain ⟨m, rfl⟩ := hasType_int ht hw
      exact ⟨_, rfl⟩
  | IsChr text =>
      obtain ⟨key, rfl⟩ := hasType_chr ht hw
      exact ⟨_, rfl⟩
  | IsStr text =>
      obtain ⟨key, rfl⟩ := hasType_str ht hw
      exact ⟨_, rfl⟩
  | IsBool bool =>
      obtain ⟨u, hs⟩ := ht
      obtain ⟨b, rfl⟩ := hasType_bool hs hw
      cases b
      · exact ⟨!bool, rfl⟩
      · exact ⟨bool, rfl⟩

/-! ### Complete tests -/

/-- The constructor a test asks for. -/
def ctorNameOf : Test → String
  | .IsCtor _ name _ _ _ => name
  | _ => ""

/-- The tests of a custom type ask for its constructors. -/
theorem testTyped_custom {home : Can.ModuleName} {union : Can.Union} {args : List (List Γ.Ty)}
    (hs : Γ.shape t = .custom home union args) {test : Test} (ht : TestTyped Γ t test) :
    ∃ index c opts, union.alts[index]? = some c
      ∧ test = .IsCtor home c.name index union.numAlts opts := by
  cases test with
  | IsCtor home' name index numAlts opts =>
      obtain ⟨union', args', c, hs', hc, hname, hnum⟩ := ht
      obtain ⟨rfl, rfl, rfl⟩ := Shape.custom.inj (hs.symm.trans hs')
      exact ⟨index, c, opts, hc, by rw [hname, hnum]⟩
  | IsCons => obtain ⟨e, hs'⟩ := ht; cases hs.symm.trans hs'
  | IsNil => obtain ⟨e, hs'⟩ := ht; cases hs.symm.trans hs'
  | IsInt n => cases hs.symm.trans ht
  | IsChr text => cases hs.symm.trans ht
  | IsStr text => cases hs.symm.trans ht
  | IsBool bool => obtain ⟨u, hs'⟩ := ht; cases hs.symm.trans hs'

/-- As many different tests of a custom type as it has constructors ask for each. -/
theorem complete_custom {home : Can.ModuleName} {union : Can.Union} {args : List (List Γ.Ty)}
    (hs : Γ.shape t = .custom home union args) {tests : List Test}
    (ht : ∀ test ∈ tests, TestTyped Γ t test) (hkeys : (tests.map testToComparable).Nodup)
    (hcount : union.numAlts = tests.length) {c : Can.Ctor} (hc : c ∈ union.alts) :
    ∃ index opts, .IsCtor home c.name index union.numAlts opts ∈ tests := by
  have hnames : (tests.map ctorNameOf).Nodup := by
    rw [List.Nodup, List.pairwise_map] at hkeys ⊢
    refine hkeys.imp_of_mem fun {a b} ha hb hne heq => hne ?_
    obtain ⟨i, d, o, hd, rfl⟩ := testTyped_custom hs (ht a ha)
    obtain ⟨j, e, o', he, rfl⟩ := testTyped_custom hs (ht b hb)
    have hde : d.name = e.name := heq
    rw [testToComparable, testToComparable, hde, ctor_unique hs hd he hde]
  have hsub : tests.map ctorNameOf ⊆ union.alts.map Can.Ctor.name := by
    intro name hname
    obtain ⟨test, htest, rfl⟩ := List.mem_map.mp hname
    obtain ⟨i, d, o, hd, rfl⟩ := testTyped_custom hs (ht test htest)
    exact List.mem_map.mpr ⟨d, List.mem_iff_getElem?.mpr ⟨i, hd⟩, rfl⟩
  have hperm := (hnames.subperm hsub).perm_of_length_le (by
    rw [List.length_map, List.length_map, ← hcount, (Γ.custom t _ _ _ hs).numAlts])
  obtain ⟨test, htest, hname⟩ := List.mem_map.mp (hperm.mem_iff.mpr (List.mem_map.mpr ⟨c, hc, rfl⟩))
  obtain ⟨i, d, o, hd, rfl⟩ := testTyped_custom hs (ht test htest)
  have hdc : d.name = c.name := hname
  exact ⟨i, o, hdc ▸ htest⟩

/-- Complete tests are passed by every value of their type. -/
theorem exists_passed {tests : List Test} (ht : ∀ test ∈ tests, TestTyped Γ t test)
    (hkeys : (tests.map testToComparable).Nodup) (hcomplete : isComplete tests = true)
    {w : Value} (hw : HasType Γ.shape w t) : ∃ test ∈ tests, test.passes w = some true := by
  match tests, hcomplete with
  | first :: others, hcomplete =>
  have hfirst := ht first List.mem_cons_self
  -- two tests of lists or of `Bool` are both of them
  have htwo : 1 + others.length = 2 → ∃ second, others = [second] := by
    intro h
    obtain ⟨second, hsecond⟩ := List.length_eq_one_iff.mp (show others.length = 1 by omega)
    exact ⟨second, hsecond⟩
  cases first with
  | IsCtor home name index numAlts opts =>
      obtain ⟨union, args, c, hs, hc, hname, hnum⟩ := id hfirst
      have hcount : numAlts = 1 + others.length := of_decide_eq_true hcomplete
      obtain ⟨i, d, ws, tys, rfl, hd, -⟩ := hasType_custom hs hw
      obtain ⟨j, o, hmem⟩ := complete_custom hs ht hkeys
        (by rw [← hnum, hcount, List.length_cons, Nat.add_comm])
        (List.mem_iff_getElem?.mpr ⟨i, hd⟩)
      exact ⟨_, hmem, by rw [Test.passes, beq_self_eq_true]⟩
  | IsCons =>
      obtain ⟨second, rfl⟩ := htwo (of_decide_eq_true hcomplete)
      obtain ⟨a, hs⟩ := id hfirst
      have hkind := kindOf_eq hfirst (ht second (List.mem_cons_of_mem _ List.mem_cons_self))
      have hne : testToComparable .IsCons ≠ testToComparable second := by
        simpa using hkeys
      cases second <;> simp [kindOf] at hkind
      · exact absurd rfl hne
      · rcases hasType_list hs hw with rfl | ⟨x, xs, rfl, -⟩
        · exact ⟨.IsNil, List.mem_cons_of_mem _ List.mem_cons_self, rfl⟩
        · exact ⟨.IsCons, List.mem_cons_self, rfl⟩
  | IsNil =>
      obtain ⟨second, rfl⟩ := htwo (of_decide_eq_true hcomplete)
      obtain ⟨a, hs⟩ := id hfirst
      have hkind := kindOf_eq hfirst (ht second (List.mem_cons_of_mem _ List.mem_cons_self))
      have hne : testToComparable .IsNil ≠ testToComparable second := by
        simpa using hkeys
      cases second <;> simp [kindOf] at hkind
      · rcases hasType_list hs hw with rfl | ⟨x, xs, rfl, -⟩
        · exact ⟨.IsNil, List.mem_cons_self, rfl⟩
        · exact ⟨.IsCons, List.mem_cons_of_mem _ List.mem_cons_self, rfl⟩
      · exact absurd rfl hne
  | IsBool bool =>
      obtain ⟨second, rfl⟩ := htwo (of_decide_eq_true hcomplete)
      obtain ⟨u, hs⟩ := id hfirst
      have hkind := kindOf_eq hfirst (ht second (List.mem_cons_of_mem _ List.mem_cons_self))
      have hne : testToComparable (.IsBool bool) ≠ testToComparable second := by
        simpa using hkeys
      cases second <;> simp [kindOf] at hkind
      rename_i bool'
      obtain ⟨b, rfl⟩ := hasType_bool hs hw
      by_cases heq : bool = b
      · refine ⟨.IsBool bool, List.mem_cons_self, ?_⟩
        subst heq
        cases bool <;> rfl
      · refine ⟨.IsBool bool', List.mem_cons_of_mem _ List.mem_cons_self, ?_⟩
        cases bool <;> cases bool' <;> cases b <;>
          first | rfl | exact absurd rfl heq | exact absurd rfl hne
  | IsInt n => cases hcomplete
  | IsChr text => cases hcomplete
  | IsStr text => cases hcomplete

/-! ## Rows -/

/-- The entries of a row are typed and lie apart. -/
structure RowOk (Γ : Universe) (t : Γ.Ty) (branch : Branch) : Prop where
  typed : ∀ e ∈ branch.pathPatterns, EntryTyped Γ t e
  laid : Laid branch.pathPatterns

/-- A row holds of a value. -/
def Branch.Holds (v : Value) (branch : Branch) : Prop :=
  ∀ e ∈ branch.pathPatterns, DecisionTree.Holds v e

/-- A row is about parts that the value has. -/
def Branch.Defined (v : Value) (branch : Branch) : Prop :=
  ∀ e ∈ branch.pathPatterns, DecisionTree.Defined v e

/-- Extracting splits a row at the entry of the path. -/
theorem extract_some {path : Path} {es start end_ : List Entry} {pattern : FlatPattern}
    (h : extract path es = some (start, pattern, end_)) :
    es = start ++ (path, pattern) :: end_ ∧ listLookup path es = some pattern := by
  induction es generalizing start with
  | nil => cases h
  | cons entry rest ih =>
      obtain ⟨q, p⟩ := entry
      rw [extract] at h
      rw [listLookup]
      by_cases hq : q = path
      · rw [if_pos hq] at h
        obtain ⟨rfl, heq⟩ := Prod.mk.inj (Option.some.inj h)
        obtain ⟨rfl, rfl⟩ := Prod.mk.inj heq
        subst hq
        exact ⟨rfl, if_pos rfl⟩
      · rw [if_neg hq] at h
        rw [if_neg fun h => hq h.symm]
        cases hrest : extract path rest with
        | none =>
            rw [hrest] at h
            cases h
        | some found =>
            obtain ⟨start', p', end'⟩ := found
            rw [hrest] at h
            obtain ⟨rfl, heq⟩ := Prod.mk.inj (Option.some.inj h)
            obtain ⟨rfl, rfl⟩ := Prod.mk.inj heq
            obtain ⟨hes, hlook⟩ := ih hrest
            exact ⟨by rw [hes]; rfl, hlook⟩

/-- Nothing is extracted when the path has no entry. -/
theorem extract_none {path : Path} {es : List Entry} (h : extract path es = none) :
    listLookup path es = none := by
  induction es with
  | nil => rfl
  | cons entry rest ih =>
      obtain ⟨q, p⟩ := entry
      rw [extract] at h
      rw [listLookup]
      by_cases hq : q = path
      · rw [if_pos hq] at h
        cases h
      · rw [if_neg hq] at h
        rw [if_neg fun h => hq h.symm]
        cases hrest : extract path rest with
        | none => exact ih hrest
        | some found =>
            rw [hrest] at h
            cases h

theorem mem_of_listLookup {path : Path} {es : List Entry} {pattern : FlatPattern}
    (h : listLookup path es = some pattern) : (path, pattern) ∈ es := by
  induction es with
  | nil => cases h
  | cons entry rest ih =>
      obtain ⟨q, p⟩ := entry
      rw [listLookup] at h
      by_cases hq : path = q
      · rw [if_pos hq] at h
        obtain rfl := Option.some.inj h
        exact hq ▸ List.mem_cons_self
      · rw [if_neg hq] at h
        exact List.mem_cons_of_mem _ (ih h)

/-- A position that needs a test is found, since no wildcard there comes before it. -/
theorem listLookup_of_needs {path : Path} {es : List Entry} {pattern : FlatPattern}
    (hlaid : Laid es) (hmem : (path, pattern) ∈ es) (hneeds : needsTests pattern = true) :
    listLookup path es = some pattern := by
  induction es with
  | nil => exact absurd hmem List.not_mem_nil
  | cons entry rest ih =>
      obtain ⟨q, p⟩ := entry
      obtain ⟨hhead, htail⟩ := List.pairwise_cons.mp hlaid
      rw [listLookup]
      rcases List.mem_cons.mp hmem with heq | hrest
      · obtain ⟨rfl, rfl⟩ := Prod.mk.inj heq
        exact if_pos rfl
      · by_cases hq : path = q
        · subst hq
          exact absurd (Path.Above.refl _) ((hhead (path, pattern) hrest).2 hneeds)
        · rw [if_neg hq]
          exact ih htail hrest

/-! ### A test that succeeded -/

/-- The arguments of a constructor have the types of its alternative. -/
theorem argsTyped_of_alts {home : Can.ModuleName} {union : Can.Union}
    {args : List (List Γ.Ty)} (hs : Γ.shape t = .custom home union args) {index : Nat}
    {c : Can.Ctor} {tys : List Γ.Ty} (hc : union.alts[index]? = some c)
    (htys : args[index]? = some tys) :
    ((ContainerHint.HintCustom c.name).ctorName, tys) ∈ altsOf Γ.shape t :=
  alts_of_index hs hc htys

/-- What a pattern that agrees with a test leaves to check. -/
theorem agreeingParts_typed {test : Test} {pattern : FlatPattern} {hint : ContainerHint}
    {parts : List Can.Pattern} (hp : pattern.Typed Γ t)
    (h : agreeingParts test pattern = some (hint, parts)) :
    argsWeight parts < pattern.weight
      ∧ (parts = [] ∨ ∃ tys, (hint.ctorName, tys) ∈ altsOf Γ.shape t
        ∧ Can.Pattern.ArgsTyped Γ parts tys) := by
  have hlit : ∀ {c : Prop} [Decidable c], (if c then some (ContainerHint.HintList,
      ([] : List Can.Pattern)) else none) = some (hint, parts) → parts = [] := by
    intro c _ h
    by_cases hc : c
    · rw [if_pos hc] at h
      exact (Prod.mk.inj (Option.some.inj h)).2.symm
    · rw [if_neg hc] at h
      cases h
  rw [agreeingParts.eq_def] at h
  split at h
  · obtain ⟨union, args', c, tys, hs, hc, rfl, -, htys, hps⟩ := hp
    split at h
    · obtain ⟨rfl, rfl⟩ := Prod.mk.inj (Option.some.inj h)
      exact ⟨by rw [FlatPattern.weight]; omega, .inr ⟨tys, argsTyped_of_alts hs hc htys, hps⟩⟩
    · cases h
  · obtain ⟨rfl, rfl⟩ := Prod.mk.inj (Option.some.inj h)
    exact ⟨Nat.zero_lt_one, .inl rfl⟩
  · obtain ⟨a, hs, hhd, htl⟩ := hp
    obtain ⟨rfl, rfl⟩ := Prod.mk.inj (Option.some.inj h)
    refine ⟨?_, .inr ⟨[a, t], ?_, argsTyped_two hhd htl⟩⟩
    · simp only [FlatPattern.weight, argsWeight]
      omega
    · rw [altsOf, hs]
      exact List.mem_pair.mpr (.inr rfl)
  · obtain rfl := hlit h
    exact ⟨Nat.zero_lt_one, .inl rfl⟩
  · obtain rfl := hlit h
    exact ⟨Nat.zero_lt_one, .inl rfl⟩
  · obtain rfl := hlit h
    exact ⟨Nat.zero_lt_one, .inl rfl⟩
  · obtain rfl := hlit h
    exact ⟨Nat.zero_lt_one, .inl rfl⟩
  · cases h

/-- A pattern without parts: it agrees with the test when it matches. -/
theorem answers_noParts {v : Value} {path : Path} {hint : ContainerHint} {matched agrees : Prop}
    [Decidable agrees] (h : matched ↔ agrees) :
    match (if agrees then some (hint, []) else none :
        Option (ContainerHint × List Can.Pattern)) with
    | none => ¬matched
    | some (hint, parts) => Answers v (entriesOfAll hint path 0 parts) matched := by
  by_cases heq : agrees
  · rw [if_pos heq]
    show Answers v (entriesOfAll hint path 0 []) matched
    rw [entriesOfAll, flattenAll]
    exact answers_nil.congr (iff_true_intro (h.mpr heq)).symm
  · rw [if_neg heq]
    exact fun hmatched => heq (h.mp hmatched)

/-- The parts of a constructor pattern, at a value of the test's constructor. -/
theorem agreeingParts_ctor {home home' : Can.ModuleName} {name name' : String}
    {index index' numAlts numAlts' : Nat} {opts opts' : Can.CtorOpts} {ps : List Can.Pattern}
    {v w : Value} {path : Path} (hget : path.get v = some w) (hw : HasType Γ.shape w t)
    (hp : (FlatPattern.FCtor home' name' index' numAlts' opts' ps).Typed Γ t)
    (hpass : (Test.IsCtor home name index numAlts opts).passes w = some true) :
    match agreeingParts (.IsCtor home name index numAlts opts)
        (.FCtor home' name' index' numAlts' opts' ps) with
    | none => ¬(FlatPattern.FCtor home' name' index' numAlts' opts' ps).Matches w
    | some (hint, parts) => Answers v (entriesOfAll hint path 0 parts)
        ((FlatPattern.FCtor home' name' index' numAlts' opts' ps).Matches w) := by
  obtain ⟨union', args', c', tys, hs', hc', rfl, -, htys, hps⟩ := hp
  obtain ⟨i, d, ws, tys', rfl, hd, htys', hws⟩ := hasType_custom hs' hw
  have hname : d.name = name := beq_iff_eq.mp (Option.some.inj hpass)
  rw [agreeingParts]
  by_cases heq : c'.name = name
  · rw [if_pos heq]
    have hdc : d.name = c'.name := hname.trans heq.symm
    obtain rfl := alts_unique (hdc ▸ alts_of_index hs' hd htys') (alts_of_index hs' hc' htys)
    show Answers v _ (FlatPattern.Matches _ _)
    rw [FlatPattern.Matches, hdc, exists_args_iff]
    rw [hdc] at hget
    show Answers v _ (Can.Pattern.ArgsMatch _ (ws.drop 0))
    exact holds_entriesOfAll hget rfl hws hps
  · rw [if_neg heq]
    show ¬FlatPattern.Matches _ _
    rw [FlatPattern.Matches]
    rintro ⟨vs, hvs, -⟩
    exact heq ((Value.ctor.inj hvs).1.symm.trans hname)

/-- The parts of a pattern for a list, at a list that is not empty. -/
theorem agreeingParts_cons {hd tl : Can.Pattern} {a : Γ.Ty} {v x xs : Value} {path : Path}
    (hget : path.get v = some (.ctor consName [x, xs])) (hs : Γ.shape t = .list a)
    (hx : HasType Γ.shape x a) (hxs : HasType Γ.shape xs t)
    (hp : (FlatPattern.FCons hd tl).Typed Γ t) :
    Answers v (entriesOfAll .HintList path 0 [hd, tl])
      ((FlatPattern.FCons hd tl).Matches (.ctor consName [x, xs])) := by
  obtain ⟨b, hs', hhd, htl⟩ := hp
  obtain rfl := Shape.list.inj (hs.symm.trans hs')
  have hws : HaveTypes Γ.shape ([x, xs].drop 0) [a, t] := by
    show HaveTypes Γ.shape [x, xs] [a, t]
    rw [haveTypes_cons, haveTypes_cons, HaveTypes]
    exact ⟨hx, hxs, rfl⟩
  refine (holds_entriesOfAll hget rfl hws (argsTyped_two hhd htl)).congr ?_
  show Can.Pattern.ArgsMatch _ [x, xs] ↔ _
  rw [FlatPattern.Matches, argsMatch_cons, argsMatch_cons, Can.Pattern.ArgsMatch]
  simp

/-- The parts hold of a value that passes the test when the pattern does. -/
theorem agreeingParts_answers {test : Test} {pattern : FlatPattern} {v w : Value} {path : Path}
    (hget : path.get v = some w) (hw : HasType Γ.shape w t) (ht : TestTyped Γ t test)
    (hp : pattern.Typed Γ t) (hneeds : needsTests pattern = true)
    (hpass : test.passes w = some true) :
    match agreeingParts test pattern with
    | none => ¬pattern.Matches w
    | some (hint, parts) => Answers v (entriesOfAll hint path 0 parts) (pattern.Matches w) := by
  obtain ⟨test', htest'⟩ := needsTests_iff.mp hneeds
  have hkind := kindOf_eq ht (testTyped_of_typed hp htest')
  cases test with
  | IsCtor home name index numAlts opts =>
      cases pattern <;> simp [testOf] at htest' <;> subst htest' <;> simp [kindOf] at hkind
      exact agreeingParts_ctor hget hw hp hpass
  | IsNil =>
      obtain ⟨a, hs⟩ := ht
      have hnilw : w = .ctor nilName [] := by
        rcases hasType_list hs hw with rfl | ⟨x, xs, rfl, -⟩
        · rfl
        · cases hpass
      cases pattern <;> simp [testOf] at htest' <;> subst htest' <;> simp [kindOf] at hkind
      · exact @answers_noParts _ _ _ _ True _ (iff_true_intro hnilw)
      · show ¬FlatPattern.Matches _ _
        rw [FlatPattern.Matches, hnilw]
        rintro ⟨x, xs, hcons, -⟩
        exact absurd (Value.ctor.inj hcons).1 (by decide)
  | IsCons =>
      obtain ⟨a, hs⟩ := ht
      rcases hasType_list hs hw with rfl | ⟨x, xs, rfl, hx, hxs⟩
      · cases hpass
      cases pattern <;> simp [testOf] at htest' <;> subst htest' <;> simp [kindOf] at hkind
      · show ¬FlatPattern.Matches _ _
        rw [FlatPattern.Matches]
        intro hcons
        exact absurd (Value.ctor.inj hcons).1 (by decide)
      · exact agreeingParts_cons hget hs hx hxs hp
  | IsInt n =>
      obtain ⟨m, rfl⟩ := hasType_int ht hw
      have hm : m = n := beq_iff_eq.mp (Option.some.inj hpass)
      cases pattern <;> simp [testOf] at htest' <;> subst htest' <;> simp [kindOf] at hkind
      refine answers_noParts ⟨fun h => ?_, fun h => ?_⟩
      · exact (Value.int.inj h).symm.trans hm
      · rw [FlatPattern.Matches, hm, h]
  | IsChr text =>
      obtain ⟨key, rfl⟩ := hasType_chr ht hw
      have hm : key = StringLiteral.valueKey text := beq_iff_eq.mp (Option.some.inj hpass)
      cases pattern <;> simp [testOf] at htest' <;> subst htest' <;> simp [kindOf] at hkind
      refine answers_noParts ⟨fun h => ?_, fun h => ?_⟩
      · exact (Value.chr.inj h).symm.trans hm
      · rw [FlatPattern.Matches, hm, h]
  | IsStr text =>
      obtain ⟨key, rfl⟩ := hasType_str ht hw
      have hm : key = StringLiteral.valueKey text := beq_iff_eq.mp (Option.some.inj hpass)
      cases pattern <;> simp [testOf] at htest' <;> subst htest' <;> simp [kindOf] at hkind
      refine answers_noParts ⟨fun h => ?_, fun h => ?_⟩
      · exact (Value.str.inj h).symm.trans hm
      · rw [FlatPattern.Matches, hm, h]
  | IsBool bool =>
      obtain ⟨u, hs⟩ := ht
      obtain ⟨b, rfl⟩ := hasType_bool hs hw
      have hb : b = bool := by
        cases b <;> cases bool <;> first | rfl | cases hpass
      cases pattern <;> simp [testOf] at htest' <;> subst htest' <;> simp [kindOf] at hkind
      rename_i bool'
      refine answers_noParts ⟨fun h => ?_, fun h => ?_⟩
      · rw [FlatPattern.Matches, hb] at h
        cases bool <;> cases bool' <;>
          first | rfl | exact absurd (Value.ctor.inj h).1 (by decide)
      · rw [FlatPattern.Matches, hb, h]

/-- The test of a row at a path is that of its entry there. -/
theorem testAtPath_some {path : Path} {branch : Branch} {test : Test}
    (h : testAtPath path branch = some test) :
    ∃ pattern, listLookup path branch.pathPatterns = some pattern ∧ testOf pattern = some test :=
  Option.bind_eq_some_iff.mp h

/-- The test of a typed row is one of the type at its path. -/
theorem testTyped_of_row {path : Path} {branch : Branch} {test : Test} {tp : Γ.Ty}
    (hb : RowOk Γ t branch) (hpath : PathTyped Γ t path tp)
    (h : testAtPath path branch = some test) : TestTyped Γ tp test := by
  obtain ⟨pattern, hlook, htest⟩ := testAtPath_some h
  obtain ⟨tq, htq, htyped⟩ := hb.typed _ (mem_of_listLookup hlook)
  obtain rfl := pathTyped_unique hpath htq
  exact testTyped_of_typed htyped htest

/-- A row whose entry at the path is gone, replaced by the parts of its pattern. -/
theorem rowOk_replace {path : Path} {tp : Γ.Ty} {start end_ : List Entry}
    {pattern : FlatPattern} {hint : ContainerHint} {parts : List Can.Pattern} {goal : Nat}
    (hrow : RowOk Γ t { goal := goal, pathPatterns := start ++ (path, pattern) :: end_ })
    (hneeds : needsTests pattern = true) (hpath : PathTyped Γ t path tp)
    (hparts : parts = [] ∨ ∃ tys, (hint.ctorName, tys) ∈ altsOf Γ.shape tp
      ∧ Can.Pattern.ArgsTyped Γ parts tys) :
    RowOk Γ t { goal := goal,
                pathPatterns := start ++ (entriesOfAll hint path 0 parts ++ end_) } := by
  obtain ⟨hstart, hrest, hcross⟩ := List.pairwise_append.mp hrow.laid
  obtain ⟨hafter, hend⟩ := List.pairwise_cons.mp hrest
  have hfits := (entriesOfAll_fits hint path 0 parts).fits
  refine ⟨fun e he => ?_, List.pairwise_append.mpr ⟨hstart, List.pairwise_append.mpr
    ⟨hfits.1, hend, fun e he e' he' => ?_⟩, fun e he e' he' => ?_⟩⟩
  · rcases List.mem_append.mp he with he | he
    · exact hrow.typed e (List.mem_append_left _ he)
    rcases List.mem_append.mp he with he | he
    · rcases hparts with rfl | ⟨tys, hmem, hty⟩
      · rw [entriesOfAll, flattenAll] at he
        exact absurd he List.not_mem_nil
      · exact entriesOfAll_typed hpath hmem (by rw [List.drop_zero]; exact hty) e he
    · exact hrow.typed e (List.mem_append_right _ (List.mem_cons_of_mem _ he))
  · -- a part, and an entry that came after the pattern
    have h := hafter e' he'
    exact apart_of_after (hfits.2 e he) ⟨fun habove => h.1 hneeds habove, h.2⟩
  · -- an entry that came before the pattern, and a part or a later entry
    have h := hcross e he (path, pattern) List.mem_cons_self
    rcases List.mem_append.mp he' with he' | he'
    · refine apart_of_before (hfits.2 e' he') ⟨fun hn habove => ?_, h.2 hneeds⟩
      cases hneeds.symm.trans (h.1 hn habove).2
    · exact hcross e he e' (List.mem_cons_of_mem _ he')

/-- What a test leaves of a row, whatever the value. -/
theorem toRelevantBranch_static {test : Test} {path : Path} {branch branch' : Branch} {tp : Γ.Ty}
    (hrow : RowOk Γ t branch) (hpath : PathTyped Γ t path tp)
    (h : toRelevantBranch test path branch = some branch') :
    RowOk Γ t branch' ∧ branch'.goal = branch.goal
      ∧ testsIn branch'.pathPatterns ≤ testsIn branch.pathPatterns
      ∧ (∀ test', testAtPath path branch = some test' →
        testsIn branch'.pathPatterns < testsIn branch.pathPatterns) := by
  obtain ⟨goal, es⟩ := branch
  rw [toRelevantBranch] at h
  split at h
  · next hex =>
      obtain rfl := Option.some.inj h
      refine ⟨hrow, rfl, Nat.le_refl _, fun test' ht => ?_⟩
      obtain ⟨pattern, hlook, -⟩ := testAtPath_some ht
      cases (extract_none hex).symm.trans hlook
  · next start end_ hex =>
      obtain rfl := Option.some.inj h
      refine ⟨hrow, rfl, Nat.le_refl _, fun test' ht => ?_⟩
      obtain ⟨pattern, hlook, htest⟩ := testAtPath_some ht
      obtain rfl := Option.some.inj ((extract_some hex).2.symm.trans hlook)
      cases htest
  · next start pattern end_ hany hex =>
      obtain ⟨⟨hint, parts⟩, hagree, rfl⟩ := Option.map_eq_some_iff.mp h
      obtain ⟨hes, hlook⟩ := extract_some hex
      have hneeds : needsTests pattern = true := by
        cases pattern <;> first | rfl | exact absurd rfl hany
      obtain ⟨tq, htq, htyped⟩ := hrow.typed _ (mem_of_listLookup hlook)
      obtain rfl := pathTyped_unique hpath htq
      obtain ⟨hlt, hparts⟩ := agreeingParts_typed htyped hagree
      replace hlt : argsWeight parts < pattern.weight := hlt
      have hle := testsIn_entriesOfAll hint path 0 parts
      have hes' : es = start ++ (path, pattern) :: end_ := hes
      subst hes'
      have hless : testsIn (start ++ flattenAll hint path 0 parts end_)
          < testsIn (start ++ (path, pattern) :: end_) := by
        have hcons : testsIn ((path, pattern) :: end_) = pattern.weight + testsIn end_ := by
          rw [← testsIn_one path pattern, ← testsIn_append]
          rfl
        rw [flattenAll_eq, testsIn_append, testsIn_append, testsIn_append, hcons]
        omega
      refine ⟨?_, rfl, Nat.le_of_lt hless, fun _ _ => hless⟩
      show RowOk Γ t { goal := goal, pathPatterns := start ++ flattenAll hint path 0 parts end_ }
      rw [flattenAll_eq]
      exact rowOk_replace hrow hneeds hpath hparts

/-- What a test that a value passes leaves of a row, for that value. -/
theorem toRelevantBranch_dynamic {test : Test} {path : Path} {branch : Branch} {tp : Γ.Ty}
    {v w : Value} (hrow : RowOk Γ t branch) (hpath : PathTyped Γ t path tp)
    (hget : path.get v = some w) (hw : HasType Γ.shape w tp) (ht : TestTyped Γ tp test)
    (hpass : test.passes w = some true) (hdef : branch.Defined v) :
    match toRelevantBranch test path branch with
    | none => ¬branch.Holds v
    | some branch' => branch'.Defined v ∧ (branch'.Holds v ↔ branch.Holds v) := by
  obtain ⟨goal, es⟩ := branch
  rw [toRelevantBranch]
  split
  -- the row is dropped: its pattern at the path has no part that agrees with the test
  · next heq =>
      split at heq
      · cases heq
      · cases heq
      · next start pattern end_ hany hex =>
          obtain ⟨hes, hlook⟩ := extract_some hex
          have hneeds : needsTests pattern = true := by
            cases pattern <;> first | rfl | exact absurd rfl hany
          obtain ⟨tq, htq, htyped⟩ := hrow.typed _ (mem_of_listLookup hlook)
          obtain rfl := pathTyped_unique hpath htq
          have hans := agreeingParts_answers hget hw ht htyped hneeds hpass
          rw [Option.map_eq_none_iff.mp heq] at hans
          intro hholds
          exact hans ((holds_iff hget).mp (hholds _ (mem_of_listLookup hlook)))
  · next branch' heq =>
      split at heq
      · obtain rfl := Option.some.inj heq
        exact ⟨hdef, Iff.rfl⟩
      · obtain rfl := Option.some.inj heq
        exact ⟨hdef, Iff.rfl⟩
      · next start pattern end_ hany hex =>
          obtain ⟨hes, hlook⟩ := extract_some hex
          have hneeds : needsTests pattern = true := by
            cases pattern <;> first | rfl | exact absurd rfl hany
          obtain ⟨tq, htq, htyped⟩ := hrow.typed _ (mem_of_listLookup hlook)
          obtain rfl := pathTyped_unique hpath htq
          -- the pattern at the path is replaced by its parts, the other entries stay
          obtain ⟨⟨hint, parts⟩, hagree, rfl⟩ := Option.map_eq_some_iff.mp heq
          have hans := agreeingParts_answers hget hw ht htyped hneeds hpass
          rw [hagree] at hans
          have hes' : es = start ++ (path, pattern) :: end_ := hes
          subst hes'
          have hone : Answers v [(path, pattern)] (pattern.Matches w) := answers_one hget Iff.rfl
          have hsplit : ∀ e, e ∈ start ++ (path, pattern) :: end_ ↔
              e ∈ start ∨ e ∈ [(path, pattern)] ∨ e ∈ end_ := by
            intro e
            simp
          have hsplit' : ∀ e, e ∈ start ++ flattenAll hint path 0 parts end_ ↔
              e ∈ start ∨ e ∈ entriesOfAll hint path 0 parts ∨ e ∈ end_ := by
            intro e
            rw [flattenAll_eq]
            simp
          constructor
          · intro e he
            rcases (hsplit' e).mp he with he | he | he
            · exact hdef e ((hsplit e).mpr (.inl he))
            · exact hans.1 e he
            · exact hdef e ((hsplit e).mpr (.inr (.inr he)))
          · have hiff : (∀ e ∈ entriesOfAll hint path 0 parts, DecisionTree.Holds v e)
                ↔ ∀ e ∈ [(path, pattern)], DecisionTree.Holds v e := hans.2.trans hone.2.symm
            constructor
            · intro h e he
              rcases (hsplit e).mp he with he | he | he
              · exact h e ((hsplit' e).mpr (.inl he))
              · exact hiff.mp (fun e' he' => h e' ((hsplit' e').mpr (.inr (.inl he')))) e he
              · exact h e ((hsplit' e).mpr (.inr (.inr he)))
            · intro h e he
              rcases (hsplit' e).mp he with he | he | he
              · exact h e ((hsplit e).mpr (.inl he))
              · exact hiff.mpr (fun e' he' => h e' ((hsplit e').mpr (.inr (.inl he')))) e he
              · exact h e ((hsplit e).mpr (.inr (.inr he)))

/-- A row that tests a path fails for a value that does not pass its test. -/
theorem not_holds_of_fails {path : Path} {branch : Branch} {test : Test} {tp : Γ.Ty}
    {v w : Value} (hrow : RowOk Γ t branch) (hpath : PathTyped Γ t path tp)
    (hget : path.get v = some w) (hw : HasType Γ.shape w tp)
    (htest : testAtPath path branch = some test) (hfail : test.passes w = some false) :
    ¬branch.Holds v := by
  intro hholds
  obtain ⟨pattern, hlook, hof⟩ := testAtPath_some htest
  obtain ⟨tq, htq, htyped⟩ := hrow.typed _ (mem_of_listLookup hlook)
  obtain rfl := pathTyped_unique hpath htq
  have hmatch := (holds_iff hget).mp (hholds _ (mem_of_listLookup hlook))
  cases pattern <;> simp [testOf] at hof <;> subst hof <;> simp only [FlatPattern.Matches] at hmatch
  · obtain ⟨vs, rfl, -⟩ := hmatch
    rw [Test.passes, beq_self_eq_true] at hfail
    cases hfail
  · subst hmatch
    cases hfail
  · obtain ⟨x, xs, rfl, -⟩ := hmatch
    cases hfail
  · subst hmatch
    rw [Test.passes, beq_self_eq_true] at hfail
    cases hfail
  · subst hmatch
    rw [Test.passes, beq_self_eq_true] at hfail
    cases hfail
  · subst hmatch
    rw [Test.passes, beq_self_eq_true] at hfail
    cases hfail
  · subst hmatch
    rename_i bool
    cases bool <;> cases hfail

/-! ## The tests at a path -/

/-- The fold keeps one test for every key, all of them from the list. -/
private theorem skipVisited_spec (tests : List Test) :
    (tests.foldr skipVisited ([], [])).2
        = (tests.foldr skipVisited ([], [])).1.map testToComparable
      ∧ ((tests.foldr skipVisited ([], [])).1.map testToComparable).Nodup
      ∧ (∀ test ∈ (tests.foldr skipVisited ([], [])).1, test ∈ tests)
      ∧ ∀ test ∈ tests,
        testToComparable test ∈ (tests.foldr skipVisited ([], [])).1.map testToComparable := by
  induction tests with
  | nil => exact ⟨rfl, List.nodup_nil, fun _ h => h, fun _ h => absurd h List.not_mem_nil⟩
  | cons test tests ih =>
      obtain ⟨hkeys, hnodup, hsub, hall⟩ := ih
      rw [List.foldr_cons]
      by_cases hseen : testToComparable test ∈ (tests.foldr skipVisited ([], [])).2
      · rw [skipVisited, if_pos hseen]
        refine ⟨hkeys, hnodup, fun x hx => List.mem_cons_of_mem _ (hsub x hx), fun x hx => ?_⟩
        rcases List.mem_cons.mp hx with rfl | hx
        · rw [← hkeys]
          exact hseen
        · exact hall x hx
      · rw [skipVisited, if_neg hseen]
        refine ⟨by rw [hkeys]; rfl, ?_, fun x hx => ?_, fun x hx => ?_⟩
        · rw [List.map_cons, List.nodup_cons, ← hkeys]
          exact ⟨hseen, hkeys ▸ hnodup⟩
        · rcases List.mem_cons.mp hx with rfl | hx
          · exact List.mem_cons_self
          · exact List.mem_cons_of_mem _ (hsub x hx)
        · rcases List.mem_cons.mp hx with rfl | hx
          · exact List.mem_cons_self
          · exact List.mem_cons_of_mem _ (hall x hx)

/-- The tests at a path: one for each key among the tests that rows make there. -/
structure TestsAt (path : Path) (branches : List Branch) (tests : List Test) : Prop where
  nonempty : tests ≠ []
  nodup : (tests.map testToComparable).Nodup
  made : ∀ test ∈ tests, ∃ b ∈ branches, testAtPath path b = some test
  all : ∀ b ∈ branches, ∀ test, testAtPath path b = some test →
    ∃ test' ∈ tests, testToComparable test' = testToComparable test

/-- The tests at a path are those of the rows, each once. -/
theorem testsAtPath_spec {path : Path} {branches : List Branch} {b : Branch} {test : Test}
    (hb : b ∈ branches) (htest : testAtPath path b = some test) :
    ∃ tests, testsAtPath path branches = some tests ∧ TestsAt path branches tests := by
  obtain ⟨-, hnodup, hsub, hall⟩ :=
    skipVisited_spec (branches.filterMap (testAtPath path))
  have hmem : test ∈ branches.filterMap (testAtPath path) := List.mem_filterMap.mpr ⟨b, hb, htest⟩
  have hne : ((branches.filterMap (testAtPath path)).foldr skipVisited ([], [])).1 ≠ [] := by
    intro hnil
    have := hall test hmem
    rw [hnil] at this
    exact absurd this List.not_mem_nil
  refine ⟨_, ?_, hne, hnodup, fun x hx => List.mem_filterMap.mp (hsub x hx), fun c hc x hx => ?_⟩
  · rw [testsAtPath]
    split
    · next hnil => exact absurd hnil hne
    · rfl
  · exact List.mem_map.mp (hall x (List.mem_filterMap.mpr ⟨c, hc, hx⟩))

/-! ## The edges of a node -/

/-- A `mapM` whose steps all succeed. -/
theorem mapM_exists {α β : Type} {f : α → Option β} {xs : List α}
    (h : ∀ x ∈ xs, ∃ y, f x = some y) :
    ∃ ys, xs.mapM f = some ys ∧ List.Forall₂ (fun x y => f x = some y) xs ys := by
  induction xs with
  | nil => exact ⟨[], rfl, .nil⟩
  | cons x xs ih =>
      obtain ⟨y, hy⟩ := h x List.mem_cons_self
      obtain ⟨ys, hys, hall⟩ := ih fun z hz => h z (List.mem_cons_of_mem x hz)
      refine ⟨y :: ys, ?_, .cons hy hall⟩
      rw [List.mapM_cons, hy, hys]
      rfl

theorem exists_of_forall₂ {α β : Type} {R : α → β → Prop} {xs : List α} {ys : List β}
    (h : List.Forall₂ R xs ys) {y : β} (hy : y ∈ ys) : ∃ x ∈ xs, R x y := by
  induction h with
  | nil => exact absurd hy List.not_mem_nil
  | cons hxy _ ih =>
      rcases List.mem_cons.mp hy with rfl | hy
      · exact ⟨_, List.mem_cons_self, hxy⟩
      · obtain ⟨x, hx, hr⟩ := ih hy
        exact ⟨x, List.mem_cons_of_mem _ hx, hr⟩

/-- A test agrees with its own pattern. -/
theorem agreeingParts_self {pattern : FlatPattern} {test : Test} (h : testOf pattern = some test) :
    ∃ parts, agreeingParts test pattern = some parts := by
  cases pattern <;> simp [testOf] at h <;> subst h <;> simp [agreeingParts]

/-- The row that made a test is kept when the test succeeds. -/
theorem toRelevantBranch_self {path : Path} {branch : Branch} {test : Test}
    (h : testAtPath path branch = some test) :
    ∃ branch', toRelevantBranch test path branch = some branch' := by
  obtain ⟨pattern, hlook, hof⟩ := testAtPath_some h
  rw [toRelevantBranch]
  cases hex : extract path branch.pathPatterns with
  | none => cases (extract_none hex).symm.trans hlook
  | some found =>
      obtain ⟨start, pattern', end_⟩ := found
      obtain rfl := Option.some.inj ((extract_some hex).2.symm.trans hlook)
      obtain ⟨parts, hparts⟩ := agreeingParts_self hof
      cases pattern' with
      | FAnything => cases hof
      | _ =>
          simp only [hparts, Option.map_some]
          exact ⟨_, rfl⟩

/-- The edges and the fallback of a node. -/
structure EdgesAt (path : Path) (branches : List Branch) (tests : List Test)
    (edges : List (Test × Branch × List Branch)) (fallback : List Branch) : Prop where
  made : TestsAt path branches tests
  fst : edges.map Prod.fst = tests
  rows : ∀ e ∈ edges, e.2.1 :: e.2.2 = branches.filterMap (toRelevantBranch e.1 path)
  others : fallback = if isComplete tests then [] else branches.filter (isIrrelevantTo path)

/-- The edges have the tests at the path, each with the rows that agree with it. -/
theorem gatherEdges_spec {path : Path} {branches : List Branch} {b : Branch} {test : Test}
    (hb : b ∈ branches) (htest : testAtPath path b = some test) :
    ∃ tests edges fallback, gatherEdges branches path = some (edges, fallback)
      ∧ EdgesAt path branches tests edges fallback := by
  obtain ⟨tests, htests, hat⟩ := testsAtPath_spec hb htest
  -- every test comes from a row, and that row stays relevant for it
  have hedge : ∀ x ∈ tests, ∃ e, edgesFor path branches x = some e := by
    intro x hx
    obtain ⟨c, hc, hcx⟩ := hat.made x hx
    obtain ⟨c', hc'⟩ := toRelevantBranch_self hcx
    have hmem := List.mem_filterMap.mpr ⟨c, hc, hc'⟩
    rw [edgesFor]
    cases hrows : branches.filterMap (toRelevantBranch x path) with
    | nil =>
        rw [hrows] at hmem
        exact absurd hmem List.not_mem_nil
    | cons r rs => exact ⟨_, rfl⟩
  obtain ⟨edges, hedges, hall⟩ := mapM_exists hedge
  have hfor : ∀ x e, edgesFor path branches x = some e →
      e.1 = x ∧ e.2.1 :: e.2.2 = branches.filterMap (toRelevantBranch e.1 path) := by
    intro x e he
    rw [edgesFor] at he
    split at he
    · next r rs hrows =>
        obtain rfl := Option.some.inj he
        exact ⟨rfl, hrows.symm⟩
    · cases he
  refine ⟨tests, edges, _, ?_, hat, ?_, ?_, rfl⟩
  · rw [gatherEdges, htests]
    simp only [hedges]
  · clear hedges hedge hat htests
    induction hall with
    | nil => rfl
    | cons hxe _ ih => rw [List.map_cons, (hfor _ _ hxe).1, ih]
  · clear hedges hedge hat htests
    induction hall with
    | nil => exact fun e he => absurd he List.not_mem_nil
    | cons hxe _ ih =>
        intro e he
        rcases List.mem_cons.mp he with rfl | he
        · exact (hfor _ _ hxe).2
        · exact ih e he

/-! ## The path of a node -/

/-- The minimum gathered is among the candidates. -/
theorem gatherMinimum_mem {S : Path → Prop} (ws : List (Path × Nat)) (acc : Nat × Path × List Path)
    (hacc : ∀ p, p = acc.2.1 ∨ p ∈ acc.2.2 → S p) (hws : ∀ w ∈ ws, S w.1) :
    ∀ p, p = (ws.foldl gatherMinimum acc).2.1 ∨ p ∈ (ws.foldl gatherMinimum acc).2.2 → S p := by
  induction ws generalizing acc with
  | nil => exact hacc
  | cons w ws ih =>
      rw [List.foldl_cons]
      refine ih _ (fun p hp => ?_) fun x hx => hws x (List.mem_cons_of_mem _ hx)
      have hw := hws w List.mem_cons_self
      rw [gatherMinimum] at hp
      split at hp
      · rcases hp with rfl | hp
        · exact hw
        · exact hacc p (List.mem_cons.mp hp)
      · split at hp
        · rcases hp with rfl | hp
          · exact hw
          · exact absurd hp List.not_mem_nil
        · exact hacc p hp

/-- So are the best paths. -/
theorem bests_mem {S : Path → Prop} {head : Path × Nat} {ws : List (Path × Nat)}
    (hhead : S head.1) (hws : ∀ w ∈ ws, S w.1) :
    ∀ p, p = (bests head ws).1 ∨ p ∈ (bests head ws).2 → S p := by
  refine gatherMinimum_mem ws _ (fun p hp => ?_) hws
  rcases hp with rfl | hp
  · exact hhead
  · exact absurd hp List.not_mem_nil

/-- The path picked is one of those given, when each of them has edges. -/
theorem pickPath_spec {branches : List Branch} (head : Path) (tail : List Path)
    {S : Path → Prop} (hhead : S head) (htail : ∀ p ∈ tail, S p)
    (hedges : ∀ p, S p → ∃ r, gatherEdges branches p = some r) :
    ∃ path, pickPath branches head tail = some path ∧ S path := by
  have hweights : ∀ w ∈ tail.map fun path => (path, smallDefaults branches path), S w.1 := by
    intro w hw
    obtain ⟨p, hp, rfl⟩ := List.mem_map.mp hw
    exact htail p hp
  have hbest := bests_mem (show S (head, smallDefaults branches head).1 from hhead) hweights
  rw [pickPath]
  split
  · next path heq => exact ⟨path, rfl, hbest path (.inl (by rw [heq]))⟩
  · next tiedPath tiedPaths hne heq =>
      rw [heq] at hbest
      have hfactor : ∀ p, S p → ∃ n, smallBranchingFactor branches p = some n := by
        intro p hp
        obtain ⟨r, hr⟩ := hedges p hp
        exact ⟨_, by rw [smallBranchingFactor, hr]; rfl⟩
      obtain ⟨weight, hweight⟩ := hfactor tiedPath (hbest _ (.inl rfl))
      obtain ⟨weighted, hweighted, hall⟩ := mapM_exists
        (f := fun path => (smallBranchingFactor branches path).map (path, ·))
        fun p (hp : p ∈ tiedPaths) => by
          obtain ⟨n, hn⟩ := hfactor p (hbest p (.inr hp))
          exact ⟨(p, n), by rw [hn]; rfl⟩
      rw [hweight, hweighted]
      refine ⟨_, rfl, bests_mem (S := S) (hbest _ (.inl rfl)) (fun w hw => ?_) _ (.inl rfl)⟩
      obtain ⟨p, hp, hpw⟩ := exists_of_forall₂ hall hw
      obtain ⟨n, -, rfl⟩ := Option.map_eq_some_iff.mp hpw
      exact hbest p (.inr hp)

/-! ## Trees -/

/-- The first row that holds of a value has the given goal. -/
def FirstMatch (v : Value) : List Branch → Nat → Prop
  | [], _ => False
  | b :: bs, goal => (b.Holds v ∧ b.goal = goal) ∨ (¬b.Holds v ∧ FirstMatch v bs goal)

/-- Rows that fail may be dropped, and the others rewritten. -/
theorem firstMatch_filterMap {v : Value} {f : Branch → Option Branch} {branches : List Branch}
    {goal : Nat} (hf : ∀ b ∈ branches, (f b = none → ¬b.Holds v)
      ∧ ∀ b', f b = some b' → (b'.Holds v ↔ b.Holds v) ∧ b'.goal = b.goal)
    (h : FirstMatch v branches goal) : FirstMatch v (branches.filterMap f) goal := by
  induction branches with
  | nil => exact h
  | cons b bs ih =>
      obtain ⟨hnone, hsome⟩ := hf b List.mem_cons_self
      have ih' := ih fun c hc => hf c (List.mem_cons_of_mem _ hc)
      cases hfb : f b with
      | none =>
          rw [List.filterMap_cons_none hfb]
          rcases h with ⟨hholds, -⟩ | ⟨-, hrest⟩
          · exact absurd hholds (hnone hfb)
          · exact ih' hrest
      | some b' =>
          obtain ⟨hiff, hgoal⟩ := hsome b' hfb
          rw [List.filterMap_cons_some hfb]
          rcases h with ⟨hholds, hg⟩ | ⟨hnot, hrest⟩
          · exact .inl ⟨hiff.mpr hholds, hgoal.trans hg⟩
          · exact .inr ⟨fun hholds => hnot (hiff.mp hholds), ih' hrest⟩

/-- Dropping rows that do not match keeps the first match. -/
theorem firstMatch_filter {v : Value} {p : Branch → Bool} {branches : List Branch} {goal : Nat}
    (hp : ∀ b ∈ branches, p b = false → ¬b.Holds v) (h : FirstMatch v branches goal) :
    FirstMatch v (branches.filter p) goal := by
  rw [← List.filterMap_eq_filter]
  refine firstMatch_filterMap (fun b hb => ⟨fun hnone => hp b hb ?_, fun b' hsome => ?_⟩) h
  · exact Bool.eq_false_iff.mpr fun htrue => by simp [Option.guard, htrue] at hnone
  · have heq : b = b' := by
      by_cases htrue : p b = true
      · simpa [Option.guard, htrue] using hsome
      · simp [Option.guard, htrue] at hsome
    subst heq
    exact ⟨Iff.rfl, rfl⟩

/-- The edges take a value to where its test leads. -/
theorem evalEdges_spec {v w : Value} {edges : List (Test × DecisionTree)}
    {fallback : Option Nat} {goal : Nat} (hdef : ∀ e ∈ edges, ∃ b, e.1.passes w = some b)
    (hpass : ∀ e ∈ edges, e.1.passes w = some true → e.2.eval v = some goal)
    (hnone : (∀ e ∈ edges, e.1.passes w = some false) → fallback = some goal) :
    evalEdges v w edges fallback = some goal := by
  induction edges with
  | nil =>
      rw [evalEdges]
      exact hnone fun e he => absurd he List.not_mem_nil
  | cons e es ih =>
      obtain ⟨test, tree⟩ := e
      obtain ⟨b, hb⟩ := hdef _ List.mem_cons_self
      have hb' : test.passes w = some b := hb
      rw [evalEdges, hb']
      cases b with
      | true => exact hpass _ List.mem_cons_self hb
      | false =>
          refine ih (fun e he => hdef e (List.mem_cons_of_mem _ he))
            (fun e he => hpass e (List.mem_cons_of_mem _ he)) fun hall => hnone fun e he => ?_
          rcases List.mem_cons.mp he with rfl | he
          · exact hb
          · exact hall e he

/-- A tree that becomes a decider, with leaves in `P`: a node with three or more ways out
    has constructor or literal tests. -/
inductive TreeOk (P : Nat → Prop) : DecisionTree → Prop where
  | leaf {goal : Nat} (h : P goal) : TreeOk P (.Match goal)
  | node {path : Path} {edges : List (Test × DecisionTree)} {fallback : Option DecisionTree}
      (nonempty : edges ≠ [])
      (fan : 3 ≤ edges.length + fallback.toList.length →
        ∀ e ∈ edges, ∃ fanTest, toFanTest e.1 = some fanTest)
      (hedges : ∀ e ∈ edges, TreeOk P e.2)
      (hfallback : ∀ tree, fallback = some tree → TreeOk P tree) :
      TreeOk P (.Decision path edges fallback)

/-- A tree sound for some goals is sound for more. -/
theorem TreeOk.mono {P Q : Nat → Prop} (hPQ : ∀ goal, P goal → Q goal) {tree : DecisionTree}
    (h : TreeOk P tree) : TreeOk Q tree := by
  induction h with
  | leaf h => exact .leaf (hPQ _ h)
  | node nonempty fan _ _ ihe ihf => exact .node nonempty fan ihe ihf

/-- `Bool` and list tests come at most two to a position, and two are complete. -/
theorem fan_of_tests {tests : List Test} (ht : ∀ test ∈ tests, TestTyped Γ t test)
    (hkeys : (tests.map testToComparable).Nodup) {n : Nat}
    (hn : n ≤ 1 ∧ (isComplete tests = true → n = 0)) (hthree : 3 ≤ tests.length + n) :
    ∀ test ∈ tests, ∃ fanTest, toFanTest test = some fanTest := by
  -- a list or `Bool` test has one of two keys, and so has each of the others
  have htwo : ∀ keys : List String, keys.length = 2 →
      (∀ test ∈ tests, testToComparable test ∈ keys) →
        isComplete tests = (tests.length = 2 : Bool) →
      False := by
    intro keys hlen hsub hcomplete
    have hle := (hkeys.subperm fun key hkey => by
      obtain ⟨test, htest, rfl⟩ := List.mem_map.mp hkey
      exact hsub test htest).length_le
    rw [List.length_map, hlen] at hle
    have hn0 := hn.2 (by rw [hcomplete]; exact decide_eq_true (by omega))
    omega
  have hcount : ∀ first others, tests = first :: others → kindOf first = 1 ∨ kindOf first = 5 →
      isComplete tests = (tests.length = 2 : Bool) := by
    rintro first others rfl hkind
    rw [List.length_cons, Nat.add_comm]
    cases first <;> simp [kindOf] at hkind <;> rfl
  intro test htest
  match hts : tests, htest with
  | first :: others, htest =>
  have hkinds : ∀ x ∈ first :: others, kindOf x = kindOf test := fun x hx =>
    kindOf_eq (ht x hx) (ht test htest)
  have hfirst := hkinds first List.mem_cons_self
  cases test with
  | IsCtor home name index numAlts opts => exact ⟨_, rfl⟩
  | IsInt n => exact ⟨_, rfl⟩
  | IsChr text => exact ⟨_, rfl⟩
  | IsStr text => exact ⟨_, rfl⟩
  | IsCons =>
      refine absurd (hcount first others rfl (.inl hfirst)) fun hc =>
        htwo ["cons", "nil"] rfl (fun x hx => ?_) hc
      have hx' := hkinds x hx
      cases x <;> simp [kindOf] at hx' <;> simp [testToComparable]
  | IsNil =>
      refine absurd (hcount first others rfl (.inl hfirst)) fun hc =>
        htwo ["cons", "nil"] rfl (fun x hx => ?_) hc
      have hx' := hkinds x hx
      cases x <;> simp [kindOf] at hx' <;> simp [testToComparable]
  | IsBool bool =>
      refine absurd (hcount first others rfl (.inr hfirst)) fun hc =>
        htwo ["Bt", "Bf"] rfl (fun x hx => ?_) hc
      have hx' := hkinds x hx
      cases x <;> simp [kindOf] at hx'
      rename_i b
      cases b <;> simp [testToComparable]

/-! ### The node at a picked path -/

/-- The rows are in order, and about parts that the value has. -/
def RowsOk (Γ : Universe) (t : Γ.Ty) (branches : List Branch) : Prop :=
  ∀ b ∈ branches, RowOk Γ t b

/-- The number of tests that the rows can call for. -/
def rowsTests (branches : List Branch) : Nat :=
  (branches.map fun b => testsIn b.pathPatterns).sum

theorem rowsTests_cons (b : Branch) (bs : List Branch) :
    rowsTests (b :: bs) = testsIn b.pathPatterns + rowsTests bs := by
  rw [rowsTests, List.map_cons, List.sum_cons]
  rfl

/-- Rows that get no larger, one of them smaller or gone. -/
theorem rowsTests_filterMap_lt {f : Branch → Option Branch} {branches : List Branch}
    (hle : ∀ b ∈ branches, ∀ b', f b = some b' →
      testsIn b'.pathPatterns ≤ testsIn b.pathPatterns)
    (hlt : ∃ b ∈ branches, 0 < testsIn b.pathPatterns ∧ ∀ b', f b = some b' →
      testsIn b'.pathPatterns < testsIn b.pathPatterns) :
    rowsTests (branches.filterMap f) < rowsTests branches := by
  -- no row gets larger, so no list of them does
  have hall : ∀ bs : List Branch, (∀ b ∈ bs, ∀ b', f b = some b' →
      testsIn b'.pathPatterns ≤ testsIn b.pathPatterns) →
      rowsTests (bs.filterMap f) ≤ rowsTests bs := by
    intro bs hbs
    induction bs with
    | nil => exact Nat.le_refl _
    | cons b bs ih =>
        have ih' := ih fun c hc => hbs c (List.mem_cons_of_mem _ hc)
        rw [rowsTests_cons]
        cases hfb : f b with
        | none =>
            rw [List.filterMap_cons_none hfb]
            omega
        | some b' =>
            have := hbs b List.mem_cons_self b' hfb
            rw [List.filterMap_cons_some hfb, rowsTests_cons]
            omega
  induction branches with
  | nil =>
      obtain ⟨b, hb, -⟩ := hlt
      exact absurd hb List.not_mem_nil
  | cons b bs ih =>
      have hrest := hall bs fun c hc => hle c (List.mem_cons_of_mem _ hc)
      obtain ⟨c, hc, hpos, hless⟩ := hlt
      rw [rowsTests_cons]
      rcases List.mem_cons.mp hc with rfl | hc
      · cases hfb : f c with
        | none =>
            rw [List.filterMap_cons_none hfb]
            omega
        | some b' =>
            have := hless b' hfb
            rw [List.filterMap_cons_some hfb, rowsTests_cons]
            omega
      · have ih' := ih (fun d hd => hle d (List.mem_cons_of_mem _ hd)) ⟨c, hc, hpos, hless⟩
        cases hfb : f b with
        | none =>
            rw [List.filterMap_cons_none hfb]
            omega
        | some b' =>
            have := hle b List.mem_cons_self b' hfb
            rw [List.filterMap_cons_some hfb, rowsTests_cons]
            omega

/-- A pattern that needs tests counts for one at least. -/
theorem weight_pos {pattern : FlatPattern} (h : needsTests pattern = true) :
    0 < pattern.weight := by
  cases pattern <;> simp [needsTests] at h <;> simp [FlatPattern.weight]

/-- A row with a test counts for one at least. -/
theorem testsIn_pos {path : Path} {branch : Branch} {test : Test}
    (h : testAtPath path branch = some test) : 0 < testsIn branch.pathPatterns := by
  obtain ⟨pattern, hlook, hof⟩ := testAtPath_some h
  have hpos := weight_pos (needsTests_iff.mpr ⟨test, hof⟩)
  exact Nat.lt_of_lt_of_le hpos
    (List.single_le_sum (by simp) _ (List.mem_map.mpr ⟨_, mem_of_listLookup hlook, rfl⟩))

/-- A path is irrelevant to a row that has no test there. -/
theorem isIrrelevantTo_iff {path : Path} {branch : Branch} :
    isIrrelevantTo path branch = true ↔ testAtPath path branch = none := by
  rw [isIrrelevantTo, testAtPath]
  cases listLookup path branch.pathPatterns with
  | none => simp
  | some pattern => cases pattern <;> simp [needsTests, testOf]

/-- What a node makes of the rows of one edge or of the fallback. -/
structure Narrows (Γ : Universe) (t : Γ.Ty) (branches rows : List Branch) : Prop where
  ok : RowsOk Γ t rows
  goals : ∀ r ∈ rows, ∃ b ∈ branches, b.goal = r.goal
  fewer : rowsTests rows < rowsTests branches

/-- The rows of an edge, whatever the value. -/
theorem narrows_edge {branches : List Branch} {path : Path} {tp : Γ.Ty} {tests : List Test}
    (hrows : RowsOk Γ t branches) (hpath : PathTyped Γ t path tp)
    (hat : TestsAt path branches tests) {test : Test} (htest : test ∈ tests) :
    Narrows Γ t branches (branches.filterMap (toRelevantBranch test path)) := by
  refine ⟨fun r hr => ?_, fun r hr => ?_, ?_⟩
  · obtain ⟨b, hb, hbr⟩ := List.mem_filterMap.mp hr
    exact (toRelevantBranch_static (hrows b hb) hpath hbr).1
  · obtain ⟨b, hb, hbr⟩ := List.mem_filterMap.mp hr
    exact ⟨b, hb, (toRelevantBranch_static (hrows b hb) hpath hbr).2.1.symm⟩
  · obtain ⟨c, hc, hmade⟩ := hat.made test htest
    exact rowsTests_filterMap_lt
      (fun b hb b' hbb => (toRelevantBranch_static (hrows b hb) hpath hbb).2.2.1)
      ⟨c, hc, testsIn_pos hmade,
        fun b' hbb => (toRelevantBranch_static (hrows c hc) hpath hbb).2.2.2 _ hmade⟩

/-- The rows of the fallback, whatever the value. -/
theorem narrows_fallback {branches : List Branch} {path : Path} {tests : List Test}
    (hrows : RowsOk Γ t branches) (hat : TestsAt path branches tests) :
    Narrows Γ t branches (branches.filter (isIrrelevantTo path)) := by
  refine ⟨fun r hr => hrows r (List.mem_filter.mp hr).1,
    fun r hr => ⟨r, (List.mem_filter.mp hr).1, rfl⟩, ?_⟩
  obtain ⟨test, htest⟩ := List.exists_mem_of_ne_nil tests hat.nonempty
  obtain ⟨c, hc, hmade⟩ := hat.made test htest
  rw [← List.filterMap_eq_filter]
  refine rowsTests_filterMap_lt (fun b hb b' hbb => ?_) ⟨c, hc, testsIn_pos hmade, fun b' hbb => ?_⟩
  · obtain ⟨-, rfl⟩ := Option.guard_eq_some_iff.mp hbb |>.symm
    exact Nat.le_refl _
  · have hirr := (Option.guard_eq_some_iff.mp hbb).2
    rw [isIrrelevantTo_iff] at hirr
    cases hirr.symm.trans hmade

/-- A path that some row tests has a type, and its tests are of that type. -/
theorem TestsAt.typed {branches : List Branch} {path : Path} {tests : List Test}
    (hrows : RowsOk Γ t branches) (hat : TestsAt path branches tests) :
    ∃ tp, PathTyped Γ t path tp ∧ ∀ test ∈ tests, TestTyped Γ tp test := by
  obtain ⟨test, htest⟩ := List.exists_mem_of_ne_nil tests hat.nonempty
  obtain ⟨b, hb, hmade⟩ := hat.made test htest
  obtain ⟨pattern, hlook, -⟩ := testAtPath_some hmade
  obtain ⟨tp, htp, -⟩ := (hrows b hb).typed _ (mem_of_listLookup hlook)
  refine ⟨tp, htp, fun x hx => ?_⟩
  obtain ⟨c, hc, hmadex⟩ := hat.made x hx
  exact testTyped_of_row (hrows c hc) htp hmadex

/-- A path that some row tests is one that the value has. -/
theorem TestsAt.part {branches : List Branch} {path : Path} {tests : List Test} {v : Value}
    (hat : TestsAt path branches tests) (hdef : ∀ b ∈ branches, b.Defined v) :
    ∃ w, path.get v = some w := by
  obtain ⟨test, htest⟩ := List.exists_mem_of_ne_nil tests hat.nonempty
  obtain ⟨b, hb, hmade⟩ := hat.made test htest
  obtain ⟨pattern, hlook, -⟩ := testAtPath_some hmade
  exact hdef b hb _ (mem_of_listLookup hlook)

/-- The first match is among the rows of an edge whose test the value passes. -/
theorem firstMatch_edge {branches : List Branch} {path : Path} {tp : Γ.Ty} {test : Test}
    {v w : Value} {goal : Nat} (hrows : RowsOk Γ t branches) (hpath : PathTyped Γ t path tp)
    (hget : path.get v = some w) (hw : HasType Γ.shape w tp) (ht : TestTyped Γ tp test)
    (hpass : test.passes w = some true) (hdef : ∀ b ∈ branches, b.Defined v)
    (h : FirstMatch v branches goal) :
    (∀ b ∈ branches.filterMap (toRelevantBranch test path), b.Defined v)
      ∧ FirstMatch v (branches.filterMap (toRelevantBranch test path)) goal := by
  have hdyn := fun b hb =>
    toRelevantBranch_dynamic (hrows b hb) hpath hget hw ht hpass (hdef b hb)
  refine ⟨fun r hr => ?_,
    firstMatch_filterMap (fun b hb => ⟨fun hnone => ?_, fun b' hsome => ?_⟩) h⟩
  · obtain ⟨b, hb, hbr⟩ := List.mem_filterMap.mp hr
    have := hdyn b hb
    rw [hbr] at this
    exact this.1
  · have := hdyn b hb
    rw [hnone] at this
    exact this
  · have := hdyn b hb
    rw [hsome] at this
    exact ⟨this.2, (toRelevantBranch_static (hrows b hb) hpath hsome).2.1⟩

/-- The first match makes no test at the path when the value passes none of its tests. -/
theorem firstMatch_fallback {branches : List Branch} {path : Path} {tp : Γ.Ty}
    {tests : List Test} {v w : Value} {goal : Nat} (hrows : RowsOk Γ t branches)
    (hpath : PathTyped Γ t path tp) (hget : path.get v = some w) (hw : HasType Γ.shape w tp)
    (hat : TestsAt path branches tests) (htests : ∀ test ∈ tests, TestTyped Γ tp test)
    (hfail : ∀ test ∈ tests, test.passes w = some false) (h : FirstMatch v branches goal) :
    FirstMatch v (branches.filter (isIrrelevantTo path)) goal := by
  refine firstMatch_filter (fun b hb hrel => ?_) h
  cases hmade : testAtPath path b with
  | none =>
      rw [isIrrelevantTo_iff.mpr hmade] at hrel
      cases hrel
  | some test =>
      obtain ⟨test', htest', hkey⟩ := hat.all b hb test hmade
      refine not_holds_of_fails (hrows b hb) hpath hget hw hmade ?_
      rw [← testToComparable_agree (htests test' htest')
        (testTyped_of_row (hrows b hb) hpath hmade) hkey]
      exact hfail test' htest'

/-- What the tree of some rows does: it has the goals of the rows at its leaves, and takes
    each value to the first row that holds of it. -/
structure TreeSpec (Γ : Universe) (t : Γ.Ty) (branches : List Branch) (tree : DecisionTree) :
    Prop where
  ok : TreeOk (fun goal => ∃ b ∈ branches, b.goal = goal) tree
  eval : ∀ v, HasType Γ.shape v t → (∀ b ∈ branches, b.Defined v) → ∀ goal,
    FirstMatch v branches goal → tree.eval v = some goal

/-- A first row without tests matches. -/
private theorem treeSpec_leaf {first : Branch} {rest : List Branch}
    (h : first.pathPatterns.filterMap isChoicePath = []) :
    TreeSpec Γ t (first :: rest) (.Match first.goal) := by
  refine ⟨.leaf ⟨first, List.mem_cons_self, rfl⟩, fun v hv hdef goal hfirst => ?_⟩
  have hholds : first.Holds v := by
    intro e he
    have hany : needsTests e.2 = false := by
      by_contra hneeds
      have hmem : e.1 ∈ first.pathPatterns.filterMap isChoicePath :=
        List.mem_filterMap.mpr ⟨e, he, if_pos (Bool.of_not_eq_false hneeds)⟩
      rw [h] at hmem
      exact absurd hmem List.not_mem_nil
    obtain ⟨w, hw⟩ := hdef first List.mem_cons_self e he
    refine ⟨w, hw, ?_⟩
    obtain ⟨path, pattern⟩ := e
    cases pattern <;> trivial
  rcases hfirst with ⟨-, rfl⟩ | ⟨hnot, -⟩
  · rfl
  · exact absurd hholds hnot

/-- The node at a path, from the trees of its edges and of its fallback. -/
private theorem treeSpec_node {branches fallback : List Branch} {path : Path}
    {tests : List Test} {edges : List (Test × Branch × List Branch)}
    (hrows : RowsOk Γ t branches) (hat : EdgesAt path branches tests edges fallback)
    {trees : List (Test × DecisionTree)}
    (hedges : List.Forall₂ (fun e e' => e'.1 = e.1
      ∧ TreeSpec Γ t (e.2.1 :: e.2.2) e'.2) edges trees)
    {other : Option DecisionTree}
    (hother : match fallback, other with
      | [], other => other = none
      | f :: fs, other => ∃ tree, other = some tree ∧ TreeSpec Γ t (f :: fs) tree) :
    TreeSpec Γ t branches (.Decision path trees other) := by
  obtain ⟨tp, hpath, htests⟩ := hat.made.typed hrows
  have hfst : trees.map Prod.fst = tests := by
    rw [← hat.fst]
    clear hat hother
    induction hedges with
    | nil => rfl
    | cons he _ ih => rw [List.map_cons, List.map_cons, he.1, ih]
  -- the tree of an edge decides the rows that stay relevant when its test passes
  have hedge : ∀ e' ∈ trees, ∃ e ∈ edges, e'.1 = e.1 ∧ e.1 ∈ tests
      ∧ TreeSpec Γ t (branches.filterMap (toRelevantBranch e.1 path)) e'.2 := by
    intro e' he'
    obtain ⟨e, he, heq, hspec⟩ := exists_of_forall₂ hedges he'
    rw [hat.rows e he] at hspec
    exact ⟨e, he, heq, hat.fst ▸ List.mem_map.mpr ⟨e, he, rfl⟩, hspec⟩
  -- there is a fallback only where the tests leave a value out
  have hsome : ∀ tree, other = some tree →
      isComplete tests = false ∧ TreeSpec Γ t (branches.filter (isIrrelevantTo path)) tree := by
    rintro tree rfl
    have hfb := hat.others
    by_cases hcomplete : isComplete tests = true
    · rw [if_pos hcomplete] at hfb
      rw [hfb] at hother
      cases hother
    · rw [if_neg hcomplete] at hfb
      refine ⟨Bool.eq_false_iff.mpr hcomplete, ?_⟩
      cases fallback with
      | nil => cases hother
      | cons f fs =>
          obtain ⟨tree', heq, hspec⟩ := hother
          rw [Option.some.inj heq, ← hfb]
          exact hspec
  refine ⟨.node ?_ ?_ ?_ ?_, fun v hv hdef goal hfirst => ?_⟩
  · intro hnil
    rw [hnil] at hfst
    exact hat.made.nonempty hfst.symm
  -- three and more ways out make a fan of tests
  · intro hthree e he
    have hmem : e.1 ∈ tests := hfst ▸ List.mem_map.mpr ⟨e, he, rfl⟩
    refine fan_of_tests htests hat.made.nodup (n := other.toList.length) ⟨?_, ?_⟩ ?_ e.1 hmem
    · cases other <;> simp
    · intro hcomplete
      cases other with
      | none => rfl
      | some tree => cases hcomplete.symm.trans (hsome tree rfl).1
    · rw [← hfst, List.length_map]
      exact hthree
  · intro e' he'
    obtain ⟨e, -, -, hmem, hspec⟩ := hedge e' he'
    refine hspec.ok.mono ?_
    rintro goal ⟨r, hr, rfl⟩
    exact (narrows_edge hrows hpath hat.made hmem).goals r hr
  · intro tree htree
    refine (hsome tree htree).2.ok.mono ?_
    rintro goal ⟨r, hr, rfl⟩
    exact (narrows_fallback hrows hat.made).goals r hr
  -- the value at the path passes the test of one edge, or fails all of them
  · obtain ⟨w, hget⟩ := hat.made.part hdef
    have hw := hasType_get hv hget hpath
    rw [DecisionTree.eval, hget]
    refine evalEdges_spec (fun e' he' => ?_) (fun e' he' hpass => ?_) fun hfail => ?_
    · obtain ⟨e, -, heq, hmem, -⟩ := hedge e' he'
      rw [heq]
      exact passes_defined (htests _ hmem) hw
    · obtain ⟨e, -, heq, hmem, hspec⟩ := hedge e' he'
      rw [heq] at hpass
      obtain ⟨hdef', hfirst'⟩ :=
        firstMatch_edge hrows hpath hget hw (htests _ hmem) hpass hdef hfirst
      exact hspec.eval v hv hdef' goal hfirst'
    · have hfail' : ∀ test ∈ tests, test.passes w = some false := by
        intro test htest
        rw [← hfst] at htest
        obtain ⟨e', he', rfl⟩ := List.mem_map.mp htest
        exact hfail e' he'
      have hcomplete : isComplete tests = false := by
        by_contra hcomplete
        obtain ⟨test, htest, hpass⟩ := exists_passed htests hat.made.nodup
          (Bool.of_not_eq_false hcomplete) hw
        cases hpass.symm.trans (hfail' test htest)
      have hmatch := firstMatch_fallback hrows hpath hget hw hat.made htests hfail' hfirst
      have hfb := hat.others
      rw [if_neg (by rw [hcomplete]; exact Bool.false_ne_true)] at hfb
      cases other with
      | some tree =>
          exact (hsome tree rfl).2.eval v hv
            (fun b hb => hdef b (List.mem_filter.mp hb).1) goal hmatch
      | none =>
          rw [← hfb] at hmatch
          cases fallback with
          | nil => exact hmatch.elim
          | cons f fs =>
              obtain ⟨tree, heq, -⟩ := hother
              cases heq

/-- A row that needs a test makes one at the path of the entry. -/
theorem testAtPath_of_mem {branch : Branch} {path : Path} (hrow : RowOk Γ t branch)
    (h : path ∈ branch.pathPatterns.filterMap isChoicePath) :
    ∃ test, testAtPath path branch = some test := by
  obtain ⟨⟨path', pattern⟩, hmem, heq⟩ := List.mem_filterMap.mp h
  rw [isChoicePath] at heq
  split at heq
  · next hneeds =>
      obtain rfl := Option.some.inj heq
      obtain ⟨test, htest⟩ := needsTests_iff.mp hneeds
      exact ⟨test, by rw [testAtPath, listLookup_of_needs hrow.laid hmem hneeds]; exact htest⟩
  · cases heq

/-- With fuel for its tests, the tree of some rows exists and is right. -/
theorem toDecisionTree_spec (fuel : Nat) (first : Branch) (rest : List Branch)
    (hrows : RowsOk Γ t (first :: rest)) (hfuel : rowsTests (first :: rest) < fuel) :
    ∃ tree, toDecisionTree fuel first rest = some tree
      ∧ TreeSpec Γ t (first :: rest) tree := by
  induction fuel generalizing first rest with
  | zero => exact absurd hfuel (Nat.not_lt_zero _)
  | succ fuel ih =>
      rw [toDecisionTree]
      cases hchoice : first.pathPatterns.filterMap isChoicePath with
      | nil => exact ⟨_, rfl, treeSpec_leaf hchoice⟩
      | cons firstPath firstPaths =>
          -- every path to pick from is one that some row tests
          have hfirst : ∀ p ∈ firstPath :: firstPaths, ∃ b ∈ first :: rest, ∃ test,
              testAtPath p b = some test := by
            intro p hp
            rw [← hchoice] at hp
            obtain ⟨test, htest⟩ := testAtPath_of_mem (hrows first List.mem_cons_self) hp
            exact ⟨first, List.mem_cons_self, test, htest⟩
          have hrest : ∀ p ∈ (rest.flatMap Branch.pathPatterns).filterMap isChoicePath,
              ∃ b ∈ first :: rest, ∃ test, testAtPath p b = some test := by
            intro p hp
            obtain ⟨e, he, hpe⟩ := List.mem_filterMap.mp hp
            obtain ⟨b, hb, heb⟩ := List.mem_flatMap.mp he
            have hb' := List.mem_cons_of_mem first hb
            obtain ⟨test, htest⟩ := testAtPath_of_mem (hrows b hb')
              (List.mem_filterMap.mpr ⟨e, heb, hpe⟩)
            exact ⟨b, hb', test, htest⟩
          obtain ⟨path, hpick, b, hb, test, htest⟩ := pickPath_spec firstPath
            (firstPaths ++ (rest.flatMap Branch.pathPatterns).filterMap isChoicePath)
            (S := fun p => ∃ b ∈ first :: rest, ∃ test, testAtPath p b = some test)
            (hfirst firstPath List.mem_cons_self)
            (fun p hp => by
              rcases List.mem_append.mp hp with hp | hp
              · exact hfirst p (List.mem_cons_of_mem _ hp)
              · exact hrest p hp)
            (fun p hp => by
              obtain ⟨b, hb, test, htest⟩ := hp
              obtain ⟨tests, edges, fallback, hg, -⟩ := gatherEdges_spec hb htest
              exact ⟨_, hg⟩)
          obtain ⟨tests, edges, fallback, hgather, hat⟩ := gatherEdges_spec hb htest
          obtain ⟨tp, hpath, -⟩ := hat.made.typed hrows
          simp only [hpick, hgather]
          have hedge : ∀ e ∈ edges, ∃ tree, toDecisionTree fuel e.2.1 e.2.2 = some tree
              ∧ TreeSpec Γ t (e.2.1 :: e.2.2) tree := by
            intro e he
            have hn := narrows_edge hrows hpath hat.made
              (hat.fst ▸ List.mem_map.mpr ⟨e, he, rfl⟩ : e.1 ∈ tests)
            rw [← hat.rows e he] at hn
            exact ih e.2.1 e.2.2 hn.ok (by have := hn.fewer; omega)
          obtain ⟨trees, htrees, hall⟩ := mapM_exists
            (f := fun (x : Test × Branch × List Branch) =>
              (toDecisionTree fuel x.2.1 x.2.2).map (x.1, ·)) fun e (he : e ∈ edges) => by
            obtain ⟨tree, htree, -⟩ := hedge e he
            exact ⟨_, by rw [htree]; rfl⟩
          have hspecs : List.Forall₂ (fun e e' => e'.1 = e.1
              ∧ TreeSpec Γ t (e.2.1 :: e.2.2) e'.2) edges trees := by
            refine List.Forall₂.imp ?_ ((List.forall₂_and_left edges trees).mpr ⟨hedge, hall⟩)
            rintro e e' ⟨⟨tree, htree, hspec⟩, heq⟩
            rw [htree] at heq
            obtain rfl := Option.some.inj heq
            exact ⟨rfl, hspec⟩
          rw [htrees]
          dsimp only
          cases fallback with
          | nil => exact ⟨_, rfl, treeSpec_node hrows hat hspecs rfl⟩
          | cons f fs =>
              have hfb := hat.others
              have hcomplete : ¬isComplete tests = true := by
                intro hcomplete
                rw [if_pos hcomplete] at hfb
                exact List.cons_ne_nil _ _ hfb
              rw [if_neg hcomplete] at hfb
              have hn := narrows_fallback hrows hat.made
              rw [← hfb] at hn
              obtain ⟨tree, htree, hspec⟩ := ih f fs hn.ok (by have := hn.fewer; omega)
              simp only [htree]
              exact ⟨_, rfl, treeSpec_node hrows hat hspecs ⟨tree, rfl, hspec⟩⟩

/-! ## Compiling -/

/-- A branch of the source is a sound row. -/
theorem format_ok {raw : Can.Pattern × Nat} (h : raw.1.WellTyped Γ t) : RowOk Γ t (format raw) :=
  ⟨entriesOf_typed (show PathTyped Γ t .Empty t from rfl) h, (entriesOf_fits .Empty raw.1).1⟩

/-- The row of a pattern is about the whole value, and holds when the pattern matches. -/
theorem format_answers {raw : Can.Pattern × Nat} {v : Value} (h : raw.1.WellTyped Γ t)
    (hv : HasType Γ.shape v t) :
    (format raw).Defined v ∧ ((format raw).Holds v ↔ raw.1.Matches v) :=
  holds_entriesOf (show Path.get v .Empty = some v from rfl) hv h

/-- The tree of typed patterns exists and finds the first one that matches. -/
theorem compile_spec {rawBranches : List (Can.Pattern × Nat)} (hne : rawBranches ≠ [])
    (h : ∀ raw ∈ rawBranches, raw.1.WellTyped Γ t) :
    ∃ tree, compile rawBranches = some tree ∧ TreeSpec Γ t (rawBranches.map format) tree := by
  have hrows : RowsOk Γ t (rawBranches.map format) := by
    intro b hb
    obtain ⟨raw, hraw, rfl⟩ := List.mem_map.mp hb
    exact format_ok (h raw hraw)
  have hfuel : rowsTests (rawBranches.map format)
      ≤ (rawBranches.map fun raw => weight raw.1).sum := by
    clear hne h hrows
    induction rawBranches with
    | nil => exact Nat.le_refl _
    | cons raw raws ih =>
        rw [List.map_cons, rowsTests_cons, List.map_cons, List.sum_cons]
        exact Nat.add_le_add (testsIn_entriesOf .Empty raw.1) ih
  rw [compile]
  cases hmap : rawBranches.map format with
  | nil => exact absurd (List.map_eq_nil_iff.mp hmap) hne
  | cons first rest =>
      rw [hmap] at hrows hfuel
      exact toDecisionTree_spec _ first rest hrows (Nat.lt_succ_of_le hfuel)

/-- The first row that holds, by its position. -/
theorem firstMatch_of_getElem {v : Value} {branches : List Branch} {k : Nat} {b : Branch}
    (hb : branches[k]? = some b) (hholds : b.Holds v)
    (hbefore : ∀ j < k, ∀ c, branches[j]? = some c → ¬c.Holds v) :
    FirstMatch v branches b.goal := by
  induction branches generalizing k with
  | nil => cases hb
  | cons c bs ih =>
      cases k with
      | zero =>
          obtain rfl := Option.some.inj hb
          exact .inl ⟨hholds, rfl⟩
      | succ k =>
          refine .inr ⟨hbefore 0 (Nat.zero_lt_succ k) c rfl, ih hb fun j hj d hd => ?_⟩
          exact hbefore (j + 1) (Nat.succ_lt_succ hj) d hd

end DecisionTree

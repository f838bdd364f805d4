import Mathlib

/-! # Canonical patterns, types and values

    What a `case` expression is about, for the pattern checker and for the
    decision trees alike: the patterns of `Compiler.IR.Canonical`, the keys
    `Compiler.IR.Source.StringLiteral` gives literal texts, the types patterns are
    checked at and the values they match.

    A value is a tree of constructors.  Unit, tuples, lists and `Bool` are built
    with the constructors the checker names for them; a `Char` or a `String` is
    given by the key of the texts that denote it (`valueKey_eq_iff`).

    * `Can.Pattern.Matches`: what a pattern matches;
    * `Universe`: the types in play, and `Sample.shapes`: those of a small program;
    * `valueKey_eq_iff`: two texts have one key exactly when they denote one value. -/

/-! ## Literal texts -/

namespace StringLiteral

/-- `hexValue`. -/
def hexValue (digits : List Char) : Int :=
  digits.foldl
    (fun acc ch =>
      let code : Int := ch.toNat
      acc * 16 + if code ≤ 0x39 then code - 0x30 else code - 0x37) 0

/-- `decodeUnits`. -/
def decodeUnits (chars : List Char) (acc : List Int) : List Int :=
  match chars with
  | [] => acc.reverse
  | '\\' :: 'u' :: a :: b :: c :: d :: rest => decodeUnits rest (hexValue [a, b, c, d] :: acc)
  | '\\' :: 'n' :: rest => decodeUnits rest (0x0A :: acc)
  | '\\' :: 'r' :: rest => decodeUnits rest (0x0D :: acc)
  | '\\' :: 't' :: rest => decodeUnits rest (0x09 :: acc)
  | '\\' :: escaped :: rest => decodeUnits rest ((escaped.toNat : Int) :: acc)
  | c :: rest => decodeUnits rest ((c.toNat : Int) :: acc)

/-- `combineSurrogates`. -/
def combineSurrogates (acc : List Int) (units : List Int) : List Int :=
  match units with
  | hi :: lo :: rest =>
      if hi ≥ 0xD800 ∧ hi ≤ 0xDBFF ∧ lo ≥ 0xDC00 ∧ lo ≤ 0xDFFF then
        combineSurrogates (((hi - 0xD800) * 0x0400 + (lo - 0xDC00) + 0x00010000) :: acc) rest
      else combineSurrogates (hi :: acc) (lo :: rest)
  | [u] => (u :: acc).reverse
  | [] => acc.reverse

/-- `codePoints`. -/
def codePoints (text : String) : List Int :=
  combineSurrogates [] (decodeUnits text.toList [])

/-- `valueKey`. -/
def valueKey (text : String) : String :=
  ",".intercalate ((codePoints text).map Int.repr)

/-- A number in decimal has no comma. -/
private theorem comma_not_mem_repr (n : Int) : ',' ∉ n.repr.toList := by
  have hnat : ∀ m : Nat, ',' ∉ m.repr.toList := by
    intro m hm
    have hd : ','.isDigit = true :=
      Nat.isDigit_of_mem_toDigits (by decide) (by decide) (Nat.toList_repr ▸ hm)
    exact absurd hd (by decide)
  cases n with
  | ofNat m => exact hnat m
  | negSucc m =>
      intro hm
      have hrepr : (Int.negSucc m).repr = "-" ++ (m + 1).repr := rfl
      rw [hrepr, String.toList_append, List.mem_append] at hm
      rcases hm with hm | hm
      · exact absurd hm (by decide)
      · exact hnat (m + 1) hm

private theorem repr_ne_empty (n : Int) : n.repr.toList ≠ [] := by
  cases n with
  | ofNat m =>
      intro h
      exact Nat.repr_ne_empty (String.toList_inj.mp h)
  | negSucc m =>
      have hrepr : (Int.negSucc m).repr = "-" ++ (m + 1).repr := rfl
      rw [hrepr, String.toList_append]
      exact List.cons_ne_nil _ _

/-- Splitting a key at its commas gives the numbers back. -/
private theorem splitOn_key (a : List Int) (hne : a ≠ []) :
    (",".intercalate (a.map Int.repr)).toList.splitOn ','
      = (a.map Int.repr).map String.toList := by
  rw [String.toList_intercalate]
  refine List.splitOn_intercalate ',' ?_ ?_
  · intro l hl
    obtain ⟨s, hs, rfl⟩ := List.mem_map.mp hl
    obtain ⟨n, -, rfl⟩ := List.mem_map.mp hs
    exact comma_not_mem_repr n
  · intro h
    exact hne (List.map_eq_nil_iff.mp (List.map_eq_nil_iff.mp h))

/-- The key of no code points is that of no number at all. -/
private theorem key_eq_empty {a : List Int}
    (h : ",".intercalate (a.map Int.repr) = "") : a = [] := by
  by_contra hne
  have hsplit := splitOn_key a hne
  rw [h] at hsplit
  have hone : (a.map Int.repr).map String.toList = [[]] := hsplit.symm
  match a, hne with
  | n :: rest, _ =>
      rw [List.map_cons, List.map_cons] at hone
      exact repr_ne_empty n (List.cons.inj hone).1

/-- Two texts have one key exactly when they denote the same code points. -/
theorem valueKey_eq_iff (s t : String) :
    valueKey s = valueKey t ↔ codePoints s = codePoints t := by
  constructor
  · intro h
    obtain ⟨a, ha⟩ : ∃ a, a = codePoints s := ⟨_, rfl⟩
    obtain ⟨b, hb⟩ : ∃ b, b = codePoints t := ⟨_, rfl⟩
    rw [valueKey, valueKey, ← ha, ← hb] at h
    rw [← ha, ← hb]
    by_cases ha0 : a = []
    · rw [ha0] at h ⊢
      exact (key_eq_empty h.symm).symm
    by_cases hb0 : b = []
    · rw [hb0] at h
      exact absurd (key_eq_empty h) ha0
    have hsplit := splitOn_key a ha0
    rw [h, splitOn_key b hb0] at hsplit
    have hinj : Function.Injective (fun n : Int => n.repr.toList) := by
      intro m n hmn
      exact Int.repr_injective (String.toList_inj.mp hmn)
    rw [List.map_map, List.map_map] at hsplit
    exact (List.map_injective_iff.mpr hinj hsplit).symm
  · intro h
    rw [valueKey, valueKey, h]

end StringLiteral

/-! ## Unions and patterns -/

namespace Can

/-- `ModuleName.Canonical`. -/
structure ModuleName where
  author : String
  pkg : String
  moduleName : String
  deriving DecidableEq

/-- `CtorOpts`. -/
inductive CtorOpts where
  | Normal
  | Enum
  | Unbox
  deriving DecidableEq

/-- `CtorData`; its argument types are those the `Universe` gives. -/
structure Ctor where
  name : String
  index : Nat
  numArgs : Nat
  deriving DecidableEq

/-- `UnionData`. -/
structure Union where
  alts : List Ctor
  numAlts : Nat
  opts : CtorOpts
  deriving DecidableEq

/-- `Pattern_`.  Regions and node ids inside a pattern are left out, and a tuple
    pattern with a third element is `PTuple3`. -/
inductive Pattern where
  | PAnything
  | PVar (name : String)
  | PRecord (fields : List String)
  | PAlias (pattern : Pattern) (name : String)
  | PUnit
  | PTuple (a b : Pattern)
  | PTuple3 (a b c : Pattern)
  | PList (entries : List Pattern)
  | PCons (hd tl : Pattern)
  | PBool (union : Union) (bool : Bool)
  | PChr (chr : String)
  | PStr (str : String) (multiline : Bool)
  | PInt (int : Int)
  | PCtor (home : ModuleName) (type_ : String) (union : Union) (name : String) (index : Nat)
      (args : List Pattern)

end Can

/-! ## Values -/

/-- The name of the constructor of the unit value, of a pair, of a triple, of a
    non-empty list and of the empty list. -/
def unitName : String := "#0"
def pairName : String := "#2"
def tripleName : String := "#3"
def consName : String := "::"
def nilName : String := "[]"

/-- The name of the constructor of a `Bool`. -/
def boolName (bool : Bool) : String := if bool then "True" else "False"

/-- A value a `case` can meet.  A `Char` or a `String` is the key of the texts that
    denote it; `other` is a record, a function or a number with no literal pattern. -/
inductive Value where
  | int (n : Int)
  | chr (key : String)
  | str (key : String)
  | ctor (name : String) (args : List Value)
  | other (id : Nat)

namespace Can.Pattern

mutual

/-- What a pattern matches. -/
def Matches : Can.Pattern → Value → Prop
  | .PAnything, _ => True
  | .PVar _, _ => True
  | .PRecord _, _ => True
  | .PAlias p _, v => p.Matches v
  | .PUnit, v => v = .ctor unitName []
  | .PTuple a b, v => ∃ x y, v = .ctor pairName [x, y] ∧ a.Matches x ∧ b.Matches y
  | .PTuple3 a b c, v =>
      ∃ x y z, v = .ctor tripleName [x, y, z] ∧ a.Matches x ∧ b.Matches y ∧ c.Matches z
  | .PList ps, v => ListMatches ps v
  | .PCons hd tl, v => ∃ x xs, v = .ctor consName [x, xs] ∧ hd.Matches x ∧ tl.Matches xs
  | .PBool _ bool, v => v = .ctor (boolName bool) []
  | .PChr text, v => v = .chr (StringLiteral.valueKey text)
  | .PStr text _, v => v = .str (StringLiteral.valueKey text)
  | .PInt n, v => v = .int n
  | .PCtor _ _ _ name _ ps, v => ∃ vs, v = .ctor name vs ∧ ArgsMatch ps vs

/-- What a list pattern matches. -/
def ListMatches : List Can.Pattern → Value → Prop
  | [], v => v = .ctor nilName []
  | p :: ps, v => ∃ x xs, v = .ctor consName [x, xs] ∧ p.Matches x ∧ ListMatches ps xs

/-- The arguments of a constructor are matched one by one. -/
def ArgsMatch : List Can.Pattern → List Value → Prop
  | [], vs => vs = []
  | p :: ps, vs => ∃ w ws, vs = w :: ws ∧ p.Matches w ∧ ArgsMatch ps ws

end

end Can.Pattern

/-! ## Types -/

/-- What the values of a type look like: literals of one kind, the constructors of a
    built-in or custom type with their argument types, or anything else. -/
inductive Shape (Ty : Type) where
  | int
  | chr
  | str
  | unit
  | pair (a b : Ty)
  | triple (a b c : Ty)
  | list (a : Ty)
  | bool (union : Can.Union)
  | custom (home : Can.ModuleName) (union : Can.Union) (args : List (List Ty))
  | other

section
variable {Ty : Type} (shape : Ty → Shape Ty)

/-- The constructors of a type and their argument types; a list's tail has the
    list's own type. -/
def altsOf (t : Ty) : List (String × List Ty) :=
  match shape t with
  | .unit => [(unitName, [])]
  | .pair a b => [(pairName, [a, b])]
  | .triple a b c => [(tripleName, [a, b, c])]
  | .list a => [(nilName, []), (consName, [a, t])]
  | .bool _ => [(boolName true, []), (boolName false, [])]
  | .custom _ union args => (union.alts.map Can.Ctor.name).zip args
  | _ => []

mutual

/-- A value has a type. -/
def HasType : Value → Ty → Prop
  | .int _, t => shape t = .int
  | .chr _, t => shape t = .chr
  | .str _, t => shape t = .str
  | .ctor name vs, t => ∃ tys, (name, tys) ∈ altsOf shape t ∧ HaveTypes vs tys
  | .other _, t => shape t = .other

/-- Values have types, one by one. -/
def HaveTypes : List Value → List Ty → Prop
  | [], ts => ts = []
  | v :: vs, ts => ∃ t ts', ts = t :: ts' ∧ HasType v t ∧ HaveTypes vs ts'

end

/-- The declaration of a union agrees with the argument types of its constructors. -/
structure Declares (union : Can.Union) (args : List (List Ty)) : Prop where
  numAlts : union.numAlts = union.alts.length
  nonempty : union.alts ≠ []
  names : (union.alts.map Can.Ctor.name).Nodup
  lengths : args.length = union.alts.length
  numArgs : ∀ (i : Nat) (c : Can.Ctor) (tys : List Ty), union.alts[i]? = some c →
    args[i]? = some tys →
    c.numArgs = tys.length ∧ c.index = i

/-- The declaration of `Bool`. -/
structure DeclaresBool (union : Can.Union) : Prop where
  numAlts : union.numAlts = 2
  alts : ∃ t f, union.alts = [t, f] ∧ t.name = boolName true ∧ t.numArgs = 0
    ∧ f.name = boolName false ∧ f.numArgs = 0

end

/-- The types of a program, whose declarations are in order. -/
structure Universe where
  Ty : Type
  shape : Ty → Shape Ty
  custom : ∀ t home union args, shape t = .custom home union args → Declares union args
  bool : ∀ t union, shape t = .bool union → DeclaresBool union

/-- Every type has a value. -/
class Universe.AllInhabited (Γ : Universe) : Prop where
  inhabited : ∀ t, ∃ v, HasType Γ.shape v t

/-! ## Values of types -/

section
variable {Γ : Universe}

theorem haveTypes_cons {v : Value} {vs : List Value} {t : Γ.Ty} {ts : List Γ.Ty} :
    HaveTypes Γ.shape (v :: vs) (t :: ts) ↔ HasType Γ.shape v t ∧ HaveTypes Γ.shape vs ts := by
  rw [HaveTypes]
  constructor
  · rintro ⟨t', ts', heq, hv, hvs⟩
    obtain ⟨rfl, rfl⟩ := List.cons.inj heq
    exact ⟨hv, hvs⟩
  · rintro ⟨hv, hvs⟩
    exact ⟨t, ts, rfl, hv, hvs⟩

theorem haveTypes_of_cons {vs : List Value} {t : Γ.Ty} {ts : List Γ.Ty}
    (h : HaveTypes Γ.shape vs (t :: ts)) : ∃ w ws, vs = w :: ws ∧ HasType Γ.shape w t
      ∧ HaveTypes Γ.shape ws ts := by
  match vs, h with
  | [], h =>
      rw [HaveTypes] at h
      cases h
  | w :: ws, h => exact ⟨w, ws, rfl, haveTypes_cons.mp h⟩

/-- Values have types when each has the type in its place. -/
theorem haveTypes_iff {vs : List Value} {ts : List Γ.Ty} :
    HaveTypes Γ.shape vs ts ↔ List.Forall₂ (HasType Γ.shape) vs ts := by
  induction vs generalizing ts with
  | nil => rw [HaveTypes, List.forall₂_nil_left_iff]
  | cons v vs ih =>
      cases ts with
      | nil => simp [HaveTypes]
      | cons t ts => rw [haveTypes_cons, List.forall₂_cons, ih]

theorem haveTypes_length {vs : List Value} {ts : List Γ.Ty} (h : HaveTypes Γ.shape vs ts) :
    vs.length = ts.length := by
  induction vs generalizing ts with
  | nil =>
      rw [HaveTypes] at h
      rw [h]
      rfl
  | cons v vs ih =>
      rw [HaveTypes] at h
      obtain ⟨t, ts', rfl, -, hvs⟩ := h
      rw [List.length_cons, List.length_cons, ih hvs]

theorem haveTypes_append {ws vs : List Value} {ts us : List Γ.Ty}
    (hw : HaveTypes Γ.shape ws ts) (hv : HaveTypes Γ.shape vs us) :
    HaveTypes Γ.shape (ws ++ vs) (ts ++ us) := by
  induction ws generalizing ts with
  | nil =>
      rw [HaveTypes] at hw
      rw [hw]
      exact hv
  | cons w ws ih =>
      rw [HaveTypes] at hw
      obtain ⟨t, ts', rfl, hw', hws⟩ := hw
      exact haveTypes_cons.mpr ⟨hw', ih hws⟩

/-- A constructor of a type determines its argument types. -/
theorem alts_unique {t : Γ.Ty} {name : String} {tys tys' : List Γ.Ty}
    (h : (name, tys) ∈ altsOf Γ.shape t) (h' : (name, tys') ∈ altsOf Γ.shape t) :
    tys = tys' := by
  have hnodup : ((altsOf Γ.shape t).map Prod.fst).Nodup := by
    rw [altsOf]
    cases hs : Γ.shape t with
    | custom home union' args =>
        have hdecl := Γ.custom t _ _ _ hs
        rw [List.map_fst_zip (by rw [List.length_map, hdecl.lengths])]
        exact hdecl.names
    | _ => simp [unitName, pairName, tripleName, nilName, consName, boolName]
  exact congrArg Prod.snd (List.inj_on_of_nodup_map hnodup h h' rfl)

/-- A constructor pattern is about a constructor of its type. -/
theorem alts_of_index {t : Γ.Ty} {home : Can.ModuleName} {union : Can.Union}
    {args : List (List Γ.Ty)} (hs : Γ.shape t = .custom home union args) {index : Nat}
    {c : Can.Ctor} {tys : List Γ.Ty} (hc : union.alts[index]? = some c)
    (htys : args[index]? = some tys) : (c.name, tys) ∈ altsOf Γ.shape t := by
  rw [altsOf, hs]
  refine List.mem_iff_getElem?.mpr ⟨index, List.getElem?_zip_eq_some.mpr ⟨?_, htys⟩⟩
  rw [List.getElem?_map, hc]
  rfl

end

namespace Can.Pattern

variable (Γ : Universe)

mutual

/-- A pattern is one of a type. -/
def WellTyped : Can.Pattern → Γ.Ty → Prop
  | .PAnything, _ => True
  | .PVar _, _ => True
  | .PRecord _, t => Γ.shape t = .other
  | .PAlias p _, t => WellTyped p t
  | .PUnit, t => Γ.shape t = .unit
  | .PTuple a b, t => ∃ ta tb, Γ.shape t = .pair ta tb ∧ WellTyped a ta ∧ WellTyped b tb
  | .PTuple3 a b c, t => ∃ ta tb tc, Γ.shape t = .triple ta tb tc
      ∧ WellTyped a ta ∧ WellTyped b tb ∧ WellTyped c tc
  | .PList ps, t => ∃ a, Γ.shape t = .list a ∧ EntriesTyped ps a
  | .PCons hd tl, t => ∃ a, Γ.shape t = .list a ∧ WellTyped hd a ∧ WellTyped tl t
  | .PBool union _, t => Γ.shape t = .bool union
  | .PChr _, t => Γ.shape t = .chr
  | .PStr _ _, t => Γ.shape t = .str
  | .PInt _, t => Γ.shape t = .int
  | .PCtor home _ union name index ps, t =>
      ∃ args c tys, Γ.shape t = .custom home union args ∧ union.alts[index]? = some c
        ∧ c.name = name ∧ args[index]? = some tys ∧ ArgsTyped ps tys

/-- The entries of a list pattern are patterns of one type. -/
def EntriesTyped : List Can.Pattern → Γ.Ty → Prop
  | [], _ => True
  | p :: ps, a => WellTyped p a ∧ EntriesTyped ps a

/-- The arguments of a constructor pattern are patterns of its argument types. -/
def ArgsTyped : List Can.Pattern → List Γ.Ty → Prop
  | [], ts => ts = []
  | p :: ps, ts => ∃ t ts', ts = t :: ts' ∧ WellTyped p t ∧ ArgsTyped ps ts'

end

end Can.Pattern

/-! ## The types of a small program -/

namespace Sample

/-- `Int`, `Char`, `List Int` and `type Shape = Dot | Line Int (List Int)`. -/
inductive Ty where
  | int
  | chr
  | ints
  | shape

def home : Can.ModuleName := { author := "author", pkg := "project", moduleName := "Shape" }

/-- The declaration of `Shape`. -/
def shapeUnion : Can.Union :=
  { alts := [{ name := "Dot", index := 0, numArgs := 0 },
      { name := "Line", index := 1, numArgs := 2 }]
    numAlts := 2
    opts := .Normal }

def shapeArgs : List (List Ty) := [[], [.int, .ints]]

def shapeOf : Ty → Shape Ty
  | .int => .int
  | .chr => .chr
  | .ints => .list .int
  | .shape => .custom home shapeUnion shapeArgs

theorem declares_shape : Declares shapeUnion shapeArgs where
  numAlts := rfl
  nonempty := List.cons_ne_nil _ _
  names := by decide
  lengths := rfl
  numArgs := by
    intro i c tys hc htys
    rcases i with _ | _ | i
    · cases hc
      cases htys
      exact ⟨rfl, rfl⟩
    · cases hc
      cases htys
      exact ⟨rfl, rfl⟩
    · cases hc

/-- The types of the program. -/
def shapes : Universe where
  Ty := Ty
  shape := shapeOf
  custom := by
    rintro (_ | _ | _ | _) home union args ⟨⟩
    exact declares_shape
  bool := by
    rintro (_ | _ | _ | _) union ⟨⟩

/-- `Dot`. -/
def dot : Can.Pattern := .PCtor home "Shape" shapeUnion "Dot" 0 []

/-- `Line`, of two patterns. -/
def line (a b : Can.Pattern) : Can.Pattern := .PCtor home "Shape" shapeUnion "Line" 1 [a, b]

theorem dot_typed : dot.WellTyped shapes .shape :=
  ⟨shapeArgs, _, _, rfl, rfl, rfl, rfl, rfl⟩

theorem line_typed {a b : Can.Pattern} (ha : a.WellTyped shapes .int)
    (hb : b.WellTyped shapes .ints) : (line a b).WellTyped shapes .shape :=
  ⟨shapeArgs, _, _, rfl, rfl, rfl, rfl, _, _, rfl, ha, _, _, rfl, hb, rfl⟩

instance : shapes.AllInhabited where
  inhabited := by
    rintro (_ | _ | _ | _)
    · exact ⟨.int 0, rfl⟩
    · exact ⟨.chr "97", rfl⟩
    · exact ⟨.ctor nilName [], [], List.mem_cons_self, rfl⟩
    · exact ⟨.ctor "Dot" [], [], List.mem_cons_self, rfl⟩

end Sample

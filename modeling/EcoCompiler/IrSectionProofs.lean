import EcoCompiler.IrSectionReader

/-! # The reader of the IR section resolves what was written

    * `withFlag_eq`, `reads_varint` — numbers that fit the words of the host are read back;
    * `encodeBlock_eq`, `encodeRegion_eq` — what is written, list by list;
    * `numberRegion_valuesOf`, `countRegionValues_eq` — the writer numbers and counts the names of a
      region in the order of their definitions;
    * `lookupValue_valuesOf`, `get_blocksOf` — an index leads to the definition, or the block;
    * `sites_eq` — the reader finds the definitions in that order too;
    * `reads_op`, `encodeOp_resolves` — an operation is read, and every index resolved. -/

namespace IrSection

open ByteReader (Reader Reads many done byte)
open VarInt (encodeVarInt unsignedInt8)

variable {Ty Attr Loc : Type} {h : Host} {t : Tables Ty Attr Loc}

/-! ## Numbers -/

/-- What the host's `or` gives fits the host's integers. -/
theorem or_bounds (h : Host) (a b : ℤ) :
    -2 ^ (h.width - 1) ≤ h.or a b ∧ h.or a b < 2 ^ (h.width - 1) := by
  have hlo := BitVec.le_two_mul_toInt (x := BitVec.ofInt h.width a ||| BitVec.ofInt h.width b)
  have hhi := BitVec.two_mul_toInt_lt (x := BitVec.ofInt h.width a ||| BitVec.ofInt h.width b)
  rw [Host.or]
  cases h <;> simp only [Host.width] at hlo hhi ⊢ <;> omega

/-- A flag is read beside the number. -/
theorem withFlag_eq {n : ℤ} (hn : Small h n) (flag : Bool) :
    withFlag h n flag = 2 * n + flag.toNat := by
  have hcount : h.count 1 = 1 := h.count_of_lt (k := 1) (by norm_num)
  have hflag : (if flag then (1 : ℤ) else 0) = ((flag.toNat : ℕ) : ℤ) := by cases flag <;> rfl
  have hlt : flag.toNat < 2 := Bool.toNat_lt flag
  have hword : h.word (withFlag h n flag) = 2 * (h.word n % 2 ^ (h.width - 1)) + flag.toNat := by
    have heven : h.word n * 2 % 2 ^ h.width = (h.word n % 2 ^ (h.width - 1)) <<< 1 := by
      rw [Nat.shiftLeft_eq]
      cases h <;> simp only [Host.width] <;> omega
    rw [withFlag, hflag, Host.word_or, Host.word_shiftLeftBy, hcount, pow_one,
      h.word_of_lt (by omega), heven, ← Nat.shiftLeft_add_eq_or_of_lt (by omega), Nat.shiftLeft_eq]
    omega
  obtain ⟨hlo, hhi⟩ := or_bounds h (h.shiftLeftBy 1 n) (if flag then 1 else 0)
  obtain ⟨hn₁, hn₂⟩ := hn
  have hw := h.word_eq (withFlag h n flag)
  have hwn := h.word_eq n
  rw [hword] at hw
  rw [bound] at hn₂
  change -2 ^ (h.width - 1) ≤ withFlag h n flag at hlo
  change withFlag h n flag < 2 ^ (h.width - 1) at hhi
  cases h <;> simp only [Host.width] at * <;> push_cast at * <;> omega

/-- The reader of a varint gives back the integer as an unsigned word. -/
theorem reads_varint {x : ℤ} (hlo : -2 ^ (h.width - 1) ≤ x) (hhi : x < 2 ^ (h.width - 1)) :
    Reads varint (encodeVarInt h x) (x % 2 ^ 64).toNat := by
  have hx : h.Holds x := by
    cases h with
    | native => exact ⟨hlo, hhi⟩
    | javascript =>
      simp only [Host.width] at hlo hhi
      exact Host.holds_of_lt _ (by omega) (by omega)
  have hlo' : -2 ^ 63 ≤ x := by cases h <;> simp only [Host.width] at hlo <;> omega
  have hhi' : x < 2 ^ 64 := by cases h <;> simp only [Host.width] at hhi <;> omega
  exact fun rest => (VarInt.decode_encodeVarInt hx hlo' hhi' rest).1

theorem reads_small {x : ℤ} (hx : Small h x) :
    Reads varint (encodeVarInt h x) (x % 2 ^ 64).toNat := by
  obtain ⟨hlo, hhi⟩ := hx
  rw [bound] at hhi
  refine reads_varint ?_ ?_ <;> cases h <;> simp only [Host.width] at * <;> push_cast at * <;> omega

theorem small_nat {n : ℕ} (hn : n < bound h) : Small h n := ⟨by omega, by exact_mod_cast hn⟩

theorem bound_le (h : Host) : bound h ≤ 2 ^ 62 := by
  rw [bound]
  exact Nat.pow_le_pow_right (by norm_num) (by cases h <;> decide)

/-- A count below the bound is read back as it was. -/
theorem reads_count {n : ℕ} (hn : n < bound h) : Reads varint (encodeVarInt h n) n := by
  have hread := reads_small (small_nat hn)
  have hle := bound_le h
  have heq : ((n : ℤ) % 2 ^ 64).toNat = n := by omega
  rwa [heq] at hread

/-- A number with a flag in its low bit is read back as twice the number and the flag. -/
theorem reads_withFlag {n : ℕ} (hn : n < bound h) (flag : Bool) :
    Reads varint (encodeVarInt h (withFlag h n flag)) (2 * n + flag.toNat) := by
  have hlt : flag.toNat < 2 := Bool.toNat_lt flag
  have hb : 2 * bound h ≤ 2 ^ (h.width - 1) := by cases h <;> decide
  have hle := bound_le h
  have hpos : (0 : ℤ) ≤ 2 ^ (h.width - 1) := by positivity
  have hhi : (2 * n + flag.toNat : ℤ) < 2 ^ (h.width - 1) := by
    have hb' : ((2 * bound h : ℕ) : ℤ) ≤ 2 ^ (h.width - 1) := by exact_mod_cast hb
    push_cast at hb'
    omega
  have hread := reads_varint (h := h) (x := 2 * n + flag.toNat) (by omega) hhi
  rw [withFlag_eq (small_nat hn)]
  have heq : ((2 * n + flag.toNat : ℤ) % 2 ^ 64).toNat = 2 * n + flag.toNat := by omega
  rwa [heq] at hread

/-- The low bit is the flag. -/
theorem testBit_flag (n : ℕ) (flag : Bool) : (2 * n + flag.toNat).testBit 0 = flag := by
  rw [Nat.testBit_zero]
  cases flag <;> simp

/-- The rest is the number. -/
theorem div_flag (n : ℕ) (flag : Bool) : (2 * n + flag.toNat) / 2 = n := by
  have hlt : flag.toNat < 2 := Bool.toNat_lt flag
  omega

/-! ## The parts of an operation -/

/-- A list that its count precedes is read back element by element. -/
theorem reads_each {α : Type} {f : α → ℤ} {xs : List α} (hlen : xs.length < bound h)
    (hf : ∀ x ∈ xs, Small h (f x)) :
    Reads (readEach (!xs.isEmpty)) (encodeEach h (fun x => encodeVarInt h (f x)) xs)
      (xs.map fun x => (f x % 2 ^ 64).toNat) := by
  cases xs with
  | nil => exact Reads.done []
  | cons x xs =>
    exact (reads_count hlen).andThen (Reads.many_map fun x hx => reads_small (hf x hx))

/-- The mask is one byte, and its five bits say which parts follow. -/
theorem mask_bits (h : Host) (attrs results operands successors regions : Bool) :
    ∃ m : UInt8, unsignedInt8 (encodingMask h attrs results operands successors regions) = [m] ∧
      m.toNat.testBit 0 = attrs ∧ m.toNat.testBit 1 = results ∧ m.toNat.testBit 2 = operands ∧
      m.toNat.testBit 3 = successors ∧ m.toNat.testBit 4 = regions := by
  refine ⟨_, rfl, ?_⟩
  revert attrs results operands successors regions
  cases h <;> decide

/-- The attributes are read where the mask says so. -/
theorem reads_attrs (ht : t.Small h) (attrs : Dict String Attr) :
    ∃ read, Reads (readAttrs (!(bytecodeAttrs attrs).toList.isEmpty))
      (if (bytecodeAttrs attrs).toList.isEmpty then []
        else encodeVarInt h (t.dictAttrIndex (bytecodeAttrs attrs))) read := by
  cases (bytecodeAttrs attrs).toList.isEmpty with
  | true => exact ⟨none, Reads.done none⟩
  | false =>
    have hread := reads_small (ht.dictAttrIndex (bytecodeAttrs attrs))
    exact ⟨_, Reads.finish (f := fun n => done (some n)) hread rfl⟩

/-- An argument is read as its type and its location. -/
theorem reads_arg (ht : t.Small h) (arg : String × Ty) :
    ∃ read, Reads readArg (encodeVarInt h (withFlag h (t.typeIndex arg.2) true) ++
      encodeVarInt h (t.locIndex t.unknown)) read := by
  obtain ⟨hlo, hhi⟩ := or_bounds h (h.shiftLeftBy 1 (t.typeIndex arg.2)) 1
  obtain ⟨v, hv⟩ : ∃ v, v = (withFlag h (t.typeIndex arg.2) true % 2 ^ 64).toNat := ⟨_, rfl⟩
  have hread : Reads varint (encodeVarInt h (withFlag h (t.typeIndex arg.2) true)) v := by
    rw [hv]
    exact reads_varint hlo hhi
  have hodd : v % 2 = 1 := by
    rw [hv, withFlag_eq (ht.typeIndex arg.2), Bool.toNat_true]
    omega
  have hloc : Reads (if v % 2 = 1 then ByteReader.andThen varint fun loc => done (v / 2, loc)
      else done (v / 2, 0)) (encodeVarInt h (t.locIndex t.unknown))
      (v / 2, (t.locIndex t.unknown % 2 ^ 64).toNat) := by
    rw [if_pos hodd]
    exact (reads_small (ht.locIndex t.unknown)).finish rfl
  exact ⟨_, hread.andThen hloc⟩

/-- All the arguments of a block are read, as many as there are. -/
theorem reads_args (ht : t.Small h) {args : List (String × Ty)} (hlen : args.length < bound h) :
    ∃ read, Reads (readArgs (!args.isEmpty)) (if args.isEmpty then [] else encodeBlockArgs h t args)
      read ∧ read.length = args.length := by
  cases args with
  | nil => exact ⟨[], Reads.done [], rfl⟩
  | cons arg args =>
    have heach : ∀ a ∈ arg :: args, ∃ read, Reads readArg
        (encodeVarInt h (withFlag h (t.typeIndex a.2) true)
          ++ encodeVarInt h (t.locIndex t.unknown))
        read ∧ True :=
      fun a _ => (reads_arg ht a).imp fun _ hread => ⟨hread, trivial⟩
    obtain ⟨read, hread, hall⟩ := Reads.many heach
    refine ⟨read, ?_, hall.length_eq.symm⟩
    have horders : Reads (ByteReader.andThen byte fun orders =>
        if orders = 0 then done read else ByteReader.refuse) (unsignedInt8 0) read :=
      (Reads.byte 0).finish rfl
    exact Reads.andThen (f := fun n => ByteReader.andThen (many readArg n) fun args =>
      ByteReader.andThen byte fun orders => if orders = 0 then done args else ByteReader.refuse)
      (reads_count hlen) (hread.andThen horders)

/-! ## The lists of a region -/

/-- The operations of a block are written one after the other, its terminator left out. -/
theorem encodeOps_eq (env : ValueEnv) (blockEnv : BlockEnv) (ops : List (MlirOp Ty Attr Loc)) :
    encodeOps h t env blockEnv ops =
      (ops.filter fun op => !op.isTerminator).flatMap (encodeOp h t env blockEnv) := by
  induction ops with
  | nil => rfl
  | cons op ops ih =>
    rw [encodeOps, ih, List.filter_cons]
    cases op.isTerminator <;> rfl

/-- A block is written as its count and flag, its arguments and all its operations. -/
theorem encodeBlock_eq (env : ValueEnv) (blockEnv : BlockEnv) (blk : MlirBlock Ty Attr Loc) :
    encodeBlock h t env blockEnv blk =
      encodeVarInt h (withFlag h blk.ops.length (!blk.args.isEmpty)) ++
        ((if blk.args.isEmpty then [] else encodeBlockArgs h t blk.args) ++
          blk.ops.flatMap (encodeOp h t env blockEnv)) := by
  obtain ⟨args, body, terminator⟩ := blk
  have hlen : ((MlirBlock.ops ⟨args, body, terminator⟩).length : ℤ) =
      (body.filter fun op => !op.isTerminator).length + 1 := by
    rw [MlirBlock.ops, List.length_append, List.length_singleton]
    push_cast
    rfl
  rw [encodeBlock, encodeOps_eq, hlen, MlirBlock.ops, List.flatMap_append, List.flatMap_singleton]

theorem encodeBlocks_eq (env : ValueEnv) (blockEnv : BlockEnv)
    (blocks : List (String × MlirBlock Ty Attr Loc)) :
    encodeBlocks h t env blockEnv blocks =
      (blocks.map Prod.snd).flatMap (encodeBlock h t env blockEnv) := by
  induction blocks with
  | nil => rfl
  | cons entry blocks ih =>
    obtain ⟨label, blk⟩ := entry
    rw [encodeBlocks, ih]
    rfl

/-- A region is written as two counts and its blocks, in order. -/
theorem encodeRegion_eq (env : ValueEnv) (r : MlirRegion Ty Attr Loc) :
    encodeRegion h t env r =
      encodeVarInt h r.allBlocks.length ++ (encodeVarInt h (countRegionValues r) ++
        r.allBlocks.flatMap (encodeBlock h t env (buildBlockEnv r))) := by
  obtain ⟨entry, blocks⟩ := r
  have hlen : ((MlirRegion.allBlocks ⟨entry, blocks⟩).length : ℤ) = 1 + blocks.length := by
    rw [MlirRegion.allBlocks, List.length_cons, List.length_map]
    push_cast
    ring
  rw [encodeRegion, encodeBlocks_eq, hlen]
  rfl

/-- One region, in a section of its own where it is isolated. -/
def encodeNested (h : Host) (t : Tables Ty Attr Loc) (isIsolated : Bool) (env : ValueEnv)
    (region : MlirRegion Ty Attr Loc) : List UInt8 :=
  if isIsolated then
    encodeSection h irSectionId (encodeRegion h t (numberRegion emptyValueEnv region) region)
  else encodeRegion h t (numberRegion env region) region

/-- The regions of an operation are written one after the other. -/
theorem encodeRegions_eq (isIsolated : Bool) (env : ValueEnv)
    (regions : List (MlirRegion Ty Attr Loc)) :
    encodeRegions h t isIsolated env regions =
      regions.flatMap (encodeNested h t isIsolated env) := by
  induction regions with
  | nil => rfl
  | cons region regions ih =>
    rw [encodeRegions, ih]
    rfl

/-! ## Numbering -/

theorem map_mapIdx {α β γ : Type} (g : β → γ) (f : ℕ → α → β) (xs : List α) :
    (xs.mapIdx f).map g = xs.mapIdx fun i a => g (f i a) := by
  refine List.ext_getElem? fun i => ?_
  simp only [List.getElem?_map, List.getElem?_mapIdx, Option.map_map]
  rfl

theorem mapIdx_map {α β γ : Type} (g : α → β) (f : ℕ → β → γ) (xs : List α) :
    (xs.map g).mapIdx f = xs.mapIdx fun i a => f i (g a) := by
  refine List.ext_getElem? fun i => ?_
  simp only [List.getElem?_map, List.getElem?_mapIdx, Option.map_map]
  rfl

theorem mapIdx_const {α β : Type} (f : α → β) (xs : List α) :
    (xs.mapIdx fun _ a => f a) = xs.map f := by
  refine List.ext_getElem? fun i => ?_
  rw [List.getElem?_map, List.getElem?_mapIdx]

/-- Paired with their sites, the names of a region stay in their order. -/
theorem regionSites_fst {α : Type} (level : ℕ) (blocks : List (List α × List (List α))) :
    (regionSites level blocks).map Prod.fst = blocks.flatMap fun b => b.1 ++ b.2.flatten := by
  have hblock : ∀ (i : ℕ) (b : List α × List (List α)),
      (blockSites level i b.1 b.2).map Prod.fst = b.1 ++ b.2.flatten := by
    intro i b
    rw [blockSites, List.map_append, List.map_flatten, map_mapIdx, map_mapIdx]
    simp only [map_mapIdx, mapIdx_const, List.map_id']
  rw [regionSites, List.map_flatten, map_mapIdx]
  simp only [hblock, mapIdx_const, List.flatMap]

/-- The sites depend on where the names stand and not on the names. -/
theorem regionSites_snd {α β : Type} (f : α → β) (level : ℕ)
    (blocks : List (List α × List (List α))) :
    (regionSites level (blocks.map fun b => (b.1.map f, b.2.map (List.map f)))).map Prod.snd =
      (regionSites level blocks).map Prod.snd := by
  have hblock : ∀ (i : ℕ) (b : List α × List (List α)),
      (blockSites level i (b.1.map f) (b.2.map (List.map f))).map Prod.snd =
        (blockSites level i b.1 b.2).map Prod.snd := by
    intro i b
    simp only [blockSites, List.map_append, List.map_flatten, map_mapIdx, mapIdx_map]
  simp only [regionSites, List.map_flatten, map_mapIdx, mapIdx_map, hblock]

/-- The definitions of a region are its names, paired with their sites. -/
theorem defs_fst (level : ℕ) (r : MlirRegion Ty Attr Loc) :
    (r.defs level).map Prod.fst = r.names := by
  rw [MlirRegion.names, MlirRegion.defs, MlirRegion.defs, regionSites_fst, regionSites_fst]

/-- The names of a region are those of its blocks, in order. -/
theorem names_eq (r : MlirRegion Ty Attr Loc) :
    r.names = r.allBlocks.flatMap fun b => b.values.1 ++ b.values.2.flatten := by
  rw [MlirRegion.names, MlirRegion.defs, regionSites_fst, List.flatMap_map]

/-- The names are registered one after the other. -/
def registerNames (names : List String) (env : ValueEnv) : ValueEnv :=
  names.foldl (fun env name => registerValue name env) env

/-- Registering two lists is registering one after the other. -/
theorem registerNames_append (xs ys : List String) (env : ValueEnv) :
    registerNames (xs ++ ys) env = registerNames ys (registerNames xs env) := List.foldl_append

/-- Only the names of the values are registered. -/
theorem registerValues_eq (pairs : List (String × Ty)) (env : ValueEnv) :
    registerValues pairs env = registerNames (pairs.map Prod.fst) env := by
  rw [registerNames, List.foldl_map]
  rfl

/-- Numbering a block registers its arguments and then its results. -/
theorem numberBlock_eq (env : ValueEnv) (blk : MlirBlock Ty Attr Loc) :
    numberBlock env blk = registerNames (blk.values.1 ++ blk.values.2.flatten) env := by
  have hops : ∀ (ops : List (MlirOp Ty Attr Loc)) (env : ValueEnv),
      ops.foldl (fun acc op => numberOp op acc) env =
        registerNames (ops.map fun op => op.results.map Prod.fst).flatten env := by
    intro ops
    induction ops with
    | nil => exact fun _ => rfl
    | cons op ops ih =>
      intro env
      rw [List.foldl_cons, ih, List.map_cons, List.flatten_cons, registerNames_append, numberOp,
        registerValues_eq]
  have hall : numberBlock env blk =
      blk.ops.foldl (fun acc op => numberOp op acc) (registerValues blk.args env) := by
    rw [MlirBlock.ops, List.foldl_append]
    rfl
  rw [hall, hops, registerValues_eq, registerNames_append]
  rfl

/-- Numbering a region registers its names in order. -/
theorem numberRegion_eq (env : ValueEnv) (r : MlirRegion Ty Attr Loc) :
    numberRegion env r = registerNames r.names env := by
  have hblocks : ∀ (blocks : List (MlirBlock Ty Attr Loc)) (env : ValueEnv),
      blocks.foldl numberBlock env =
        registerNames (blocks.flatMap fun b => b.values.1 ++ b.values.2.flatten) env := by
    intro blocks
    induction blocks with
    | nil => exact fun _ => rfl
    | cons blk blocks ih =>
      intro env
      rw [List.foldl_cons, ih, List.flatMap_cons, registerNames_append, numberBlock_eq]
  rw [names_eq, ← hblocks, MlirRegion.allBlocks, List.foldl_cons, List.foldl_map]
  rfl

/-- Numbered after the values in scope, a region's names come after theirs. -/
theorem numberRegion_valuesOf (names : List String) (r : MlirRegion Ty Attr Loc) :
    numberRegion (valuesOf names) r = valuesOf (names ++ r.names) := by
  rw [numberRegion_eq]
  exact (registerNames_append names r.names emptyValueEnv).symm

/-- The count written for a region is the number of its names. -/
theorem countRegionValues_eq (r : MlirRegion Ty Attr Loc) :
    countRegionValues r = r.names.length := by
  -- the code sums up in folds; each fold is the length of what it goes over
  have hops : ∀ (ops : List (MlirOp Ty Attr Loc)) (n : ℤ),
      ops.foldl (fun (acc : ℤ) op => acc + op.results.length) n =
        n + ((ops.map fun op => op.results.map Prod.fst).flatten.length : ℤ) := by
    intro ops
    induction ops with
    | nil => simp
    | cons op ops ih =>
      intro n
      rw [List.foldl_cons, ih, List.map_cons, List.flatten_cons, List.length_append,
        List.length_map]
      push_cast
      ring
  have hcount : ∀ blk : MlirBlock Ty Attr Loc,
      (blk.args.length + (blk.body.filter fun op => !op.isTerminator).foldl
          (fun (acc : ℤ) op => acc + op.results.length) 0 + blk.terminator.results.length : ℤ) =
        ((blk.values.1 ++ blk.values.2.flatten).length : ℤ) := by
    intro blk
    rw [hops, MlirBlock.values, MlirBlock.ops, List.map_append, List.flatten_append,
      List.length_append, List.length_append, List.length_map]
    simp
    ring
  have hblocks : ∀ (blocks : List (String × MlirBlock Ty Attr Loc)) (n : ℤ),
      blocks.foldl (fun (acc : ℤ) entry => acc + (entry.2.args.length +
          (entry.2.body.filter fun op => !op.isTerminator).foldl
            (fun (acc : ℤ) op => acc + op.results.length) 0 +
          entry.2.terminator.results.length : ℤ)) n =
        n + (((blocks.map Prod.snd).flatMap fun b =>
          b.values.1 ++ b.values.2.flatten).length : ℤ) := by
    intro blocks
    induction blocks with
    | nil => simp
    | cons entry blocks ih =>
      intro n
      rw [List.foldl_cons, ih, hcount, List.map_cons, List.flatMap_cons]
      simp only [List.length_append]
      push_cast
      ring
  rw [countRegionValues, names_eq, MlirRegion.allBlocks, List.flatMap_cons, List.length_append]
  dsimp only
  rw [hcount, hblocks]
  push_cast
  ring

/-! ## Lookups -/

theorem valuesOf_concat (names : List String) (name : String) :
    valuesOf (names ++ [name]) = registerValue name (valuesOf names) := List.foldl_append

/-- The next index is the number of names registered. -/
theorem nextValueIndex_valuesOf (names : List String) :
    (valuesOf names).nextValueIndex = names.length := by
  induction names using List.reverseRecOn with
  | nil => rfl
  | append_singleton names name ih =>
    rw [valuesOf_concat, registerValue, ih, List.length_append]
    push_cast
    rfl

/-- The index of a name that is defined once leads to its definition. -/
theorem lookupValue_valuesOf {defs : List (String × Site)} {x : String}
    (hx : (defs.map Prod.fst).count x = 1) :
    ∃ k : ℕ, lookupValue x (valuesOf (defs.map Prod.fst)) = k ∧ k < defs.length ∧
      Resolves defs (defs.map Prod.snd) x k := by
  -- by the last name registered, since a later one takes an older one's place
  induction defs using List.reverseRecOn with
  | nil => cases hx
  | append_singleton defs e ih =>
    obtain ⟨y, site⟩ := e
    rw [List.map_append, List.map_singleton, List.count_append, List.count_singleton] at hx
    rw [List.map_append, List.map_singleton, valuesOf_concat, lookupValue, registerValue,
      Dict.get_insert, List.length_append, List.length_singleton]
    by_cases hxy : x = y
    · -- the last name registered, and it was not there before
      subst hxy
      have hnot : x ∉ defs.map Prod.fst := by
        rw [← List.count_eq_zero]
        simpa using hx
      have hlookup : defs.lookup x = none := by
        rw [List.lookup_eq_none_iff]
        intro e he
        rw [bne_iff_ne]
        rintro rfl
        exact hnot (List.mem_map_of_mem he)
      refine ⟨defs.length, ?_, Nat.lt_succ_self _, site, ?_, ?_⟩
      · rw [if_pos rfl, Option.getD_some, nextValueIndex_valuesOf, List.length_map]
      · rw [List.lookup_append, hlookup, Option.none_or, List.lookup_cons_self]
      · rw [List.map_append, List.getElem?_append_right (by rw [List.length_map]),
          List.length_map, Nat.sub_self]
        rfl
    · have hcount : (defs.map Prod.fst).count x = 1 := by
        have hne : (y == x) = false := beq_false_of_ne (Ne.symm hxy)
        simpa [hne] using hx
      obtain ⟨k, hk, hlt, site', hlookup, hsite⟩ := ih hcount
      refine ⟨k, ?_, Nat.lt_succ_of_lt hlt, site', ?_, ?_⟩
      · rw [if_neg hxy]
        exact hk
      · rw [List.lookup_append, hlookup]
        rfl
      · rw [List.map_append, List.getElem?_append_left (by rw [List.length_map]; exact hlt)]
        exact hsite

/-- The index of a label leads to it. -/
theorem get_blocksOf {labels : List String} {s : String} (hs : s ∈ labels) :
    ∃ k : ℕ, (blocksOf labels).get s = some (k : ℤ) ∧ k < labels.length ∧
      labels[k]? = some s := by
  induction labels using List.reverseRecOn with
  | nil => cases hs
  | append_singleton labels y ih =>
    have hblocks : blocksOf (labels ++ [y]) = (blocksOf labels).insert y (labels.length : ℤ) := by
      unfold blocksOf
      rw [List.mapIdx_concat]
      exact List.foldl_append
    rw [hblocks, Dict.get_insert, List.length_append, List.length_singleton]
    by_cases hsy : s = y
    · refine ⟨labels.length, if_pos hsy, Nat.lt_succ_self _, ?_⟩
      rw [List.getElem?_append_right le_rfl, Nat.sub_self, hsy]
      rfl
    · have hmem : s ∈ labels := by simpa [hsy] using hs
      obtain ⟨k, hk, hlt, hlabel⟩ := ih hmem
      refine ⟨k, ?_, Nat.lt_succ_of_lt hlt, ?_⟩
      · rw [if_neg hsy, hk]
      · rw [List.getElem?_append_left hlt, hlabel]

theorem get_blocksOf_of_notMem {labels : List String} {s : String} (hs : s ∉ labels) :
    (blocksOf labels).get s = none := by
  by_contra hne
  have hmem := Dict.mem_of_get_fromList hne
  rw [map_mapIdx, mapIdx_const, List.map_id'] at hmem
  exact hs hmem

/-- The blocks of a region are numbered by the order of their labels. -/
theorem buildBlockEnv_eq (r : MlirRegion Ty Attr Loc) : buildBlockEnv r = blocksOf r.labels := by
  rw [buildBlockEnv, blocksOf, MlirRegion.labels, List.mapIdx_cons, mapIdx_map]
  simp only [Nat.cast_zero, Nat.cast_add, Nat.cast_one]

/-! ## Reading a region -/

/-- A block is read back when its operations are. -/
theorem reads_block {p : Reader ReadOp} {R : MlirOp Ty Attr Loc → ReadOp → Prop} {env : ValueEnv}
    {blockEnv : BlockEnv} {blk : MlirBlock Ty Attr Loc} (ht : t.Small h)
    (hargs : blk.args.length < bound h) (hops : blk.ops.length < bound h)
    (hnested : ∀ o ∈ blk.ops, ∃ read, Reads p (encodeOp h t env blockEnv o) read ∧ R o read) :
    ∃ b : ReadBlock, Reads (readBlock p) (encodeBlock h t env blockEnv blk) b ∧
      b.args.length = blk.args.length ∧ List.Forall₂ R blk.ops b.ops := by
  obtain ⟨args, hreadArgs, hlen⟩ := reads_args ht hargs
  obtain ⟨ops, hreadOps, hR⟩ := Reads.many hnested
  refine ⟨⟨args, ops⟩, ?_, hlen, hR⟩
  rw [encodeBlock_eq, readBlock]
  refine (reads_withFlag hops (!blk.args.isEmpty)).andThen ?_
  rw [testBit_flag, div_flag]
  exact hreadArgs.andThen (hreadOps.finish rfl)

/-- A region is read back when the operations of its blocks are. -/
theorem reads_region {p : Reader ReadOp} {R : MlirOp Ty Attr Loc → ReadOp → Prop} {env : ValueEnv}
    {r : MlirRegion Ty Attr Loc} (ht : t.Small h) (hnames : r.names.length < bound h)
    (hblocks : r.allBlocks.length < bound h)
    (hparts : ∀ blk ∈ r.allBlocks, blk.args.length < bound h ∧ blk.ops.length < bound h)
    (hnested : ∀ blk ∈ r.allBlocks, ∀ o ∈ blk.ops,
      ∃ read, Reads p (encodeOp h t env (blocksOf r.labels) o) read ∧ R o read) :
    ∃ read : ReadRegion, Reads (readRegion p) (encodeRegion h t env r) read ∧
      read.numValues = r.names.length ∧
      List.Forall₂ (fun blk (b : ReadBlock) => b.args.length = blk.args.length ∧
        List.Forall₂ R blk.ops b.ops) r.allBlocks read.blocks := by
  obtain ⟨blocks, hread, hall⟩ := Reads.many fun blk hblk =>
    reads_block ht (hparts blk hblk).1 (hparts blk hblk).2 (hnested blk hblk)
  refine ⟨⟨r.names.length, blocks⟩, ?_, rfl, hall⟩
  rw [encodeRegion_eq, countRegionValues_eq, buildBlockEnv_eq, readRegion]
  exact (reads_count hblocks).andThen ((reads_count hnames).andThen (hread.finish rfl))

theorem units_eq {α β : Type} {xs : List α} {ys : List β} (hlen : xs.length = ys.length) :
    (xs.map fun _ => ()) = ys.map fun _ => () := by
  rw [List.map_const', List.map_const', hlen]

/-- The reader finds the values of a region where they are defined. -/
theorem sites_eq {level : ℕ} {r : MlirRegion Ty Attr Loc} {read : ReadRegion}
    (hall : List.Forall₂ (fun blk (b : ReadBlock) => b.args.length = blk.args.length ∧
      List.Forall₂ (fun o (ro : ReadOp) => ro.results.length = o.results.length) blk.ops b.ops)
      r.allBlocks read.blocks) :
    read.sites level = (r.defs level).map Prod.snd := by
  have hops : ∀ {os : List (MlirOp Ty Attr Loc)} {ros : List ReadOp},
      List.Forall₂ (fun o (ro : ReadOp) => ro.results.length = o.results.length) os ros →
      (ros.map fun ro => ro.results.map fun _ => ()) =
        (os.map fun o => o.results.map Prod.fst).map (List.map fun _ => ()) := by
    intro os ros hos
    induction hos with
    | nil => rfl
    | cons hlen _ ih =>
      rw [List.map_cons, List.map_cons, List.map_cons, ih]
      congr 1
      exact units_eq (by rw [List.length_map, hlen])
  have hshape : (read.blocks.map fun b =>
      (b.args.map fun _ => (), b.ops.map fun op => op.results.map fun _ => ())) =
        (r.allBlocks.map MlirBlock.values).map fun b =>
          (b.1.map fun _ => (), b.2.map (List.map fun _ => ())) := by
    generalize r.allBlocks = bs at hall
    generalize read.blocks = rbs at hall
    induction hall with
    | nil => rfl
    | cons hblk _ ih =>
      rw [List.map_cons, List.map_cons, List.map_cons, ih]
      congr 1
      exact Prod.ext (units_eq (by rw [hblk.1, MlirBlock.values, List.length_map]))
        (hops hblk.2)
  rw [ReadRegion.sites, hshape, MlirRegion.defs]
  exact regionSites_snd (fun _ => ()) level _

theorem Agrees.results {fuel level : ℕ} {defs : List (String × Site)} {sites : List Site}
    {labels : List String} {op : MlirOp Ty Attr Loc} {read : ReadOp}
    (hagrees : Agrees fuel defs sites labels level op read) :
    read.results.length = op.results.length := by
  cases fuel with
  | zero => exact hagrees.elim
  | succ fuel => exact hagrees.2.2.1

/-- The region that is read agrees with the one written when its operations do. -/
theorem regionAgrees_of {fuel level : ℕ} {base : List (String × Site)}
    {r : MlirRegion Ty Attr Loc} (ht : t.Small h) (hnames : r.names.length < bound h)
    (hblocks : r.allBlocks.length < bound h)
    (hparts : ∀ blk ∈ r.allBlocks, blk.args.length < bound h ∧ blk.ops.length < bound h)
    (hnested : ∀ blk ∈ r.allBlocks, ∀ o ∈ blk.ops, ∃ read,
      Reads (readOp fuel)
        (encodeOp h t (valuesOf ((base ++ r.defs level).map Prod.fst)) (blocksOf r.labels) o) read ∧
      Agrees fuel (base ++ r.defs level) ((base ++ r.defs level).map Prod.snd) r.labels level o
        read) :
    ∃ read : ReadRegion,
      Reads (readRegion (readOp fuel))
        (encodeRegion h t (valuesOf ((base ++ r.defs level).map Prod.fst)) r) read ∧
      RegionAgrees level
        (Agrees fuel (base ++ r.defs level) (base.map Prod.snd ++ read.sites level) r.labels level)
        r read := by
  obtain ⟨read, hread, hnum, hall⟩ := reads_region ht hnames hblocks hparts hnested
  have hsites : read.sites level = (r.defs level).map Prod.snd :=
    sites_eq (hall.imp fun _ _ hblk => ⟨hblk.1, hblk.2.imp fun _ _ hop => hop.results⟩)
  refine ⟨read, hread, ?_, ?_⟩
  · rw [hnum, hsites, List.length_map, ← defs_fst level r, List.length_map]
  · rw [hsites, ← List.map_append]
    exact hall

/-! ## Reading an operation -/

theorem length_le_flatMap {α β : Type} {f : α → List β} {x : α} {xs : List α} (hx : x ∈ xs) :
    (f x).length ≤ (xs.flatMap f).length := by
  induction xs with
  | nil => cases hx
  | cons y xs ih =>
    rw [List.flatMap_cons, List.length_append]
    rcases List.mem_cons.mp hx with rfl | hx
    · exact Nat.le_add_right _ _
    · exact (ih hx).trans (Nat.le_add_left _ _)

/-- The environment that a nested region is written in. -/
theorem encodeNested_eq {isIsolated : Bool} {defs : List (String × Site)} (level : ℕ)
    (r : MlirRegion Ty Attr Loc) :
    encodeNested h t isIsolated (valuesOf (defs.map Prod.fst)) r =
      if isIsolated then encodeSection h irSectionId (encodeRegion h t
        (valuesOf (((if isIsolated then [] else defs) ++ r.defs level).map Prod.fst)) r)
      else encodeRegion h t
        (valuesOf (((if isIsolated then [] else defs) ++ r.defs level).map Prod.fst)) r := by
  rw [List.map_append, defs_fst]
  cases isIsolated with
  | true =>
    exact congrArg (fun env => encodeSection h irSectionId (encodeRegion h t env r))
      (numberRegion_valuesOf [] r)
  | false => exact congrArg (fun env => encodeRegion h t env r) (numberRegion_valuesOf _ r)

/-- An operation in a region takes no more bytes than the region. -/
theorem length_encodeOp_le (h : Host) (t : Tables Ty Attr Loc) (env : ValueEnv)
    {r : MlirRegion Ty Attr Loc} {blk : MlirBlock Ty Attr Loc} {o : MlirOp Ty Attr Loc}
    (hblk : blk ∈ r.allBlocks) (ho : o ∈ blk.ops) :
    (encodeOp h t env (blocksOf r.labels) o).length ≤ (encodeRegion h t env r).length := by
  have hop := length_le_flatMap (f := encodeOp h t env (blocksOf r.labels)) ho
  have hblock := length_le_flatMap (f := encodeBlock h t env (blocksOf r.labels)) hblk
  rw [encodeBlock_eq] at hblock
  rw [encodeRegion_eq, buildBlockEnv_eq]
  simp only [List.length_append] at hblock ⊢
  omega

/-- A section around a region only adds bytes. -/
theorem length_encodeNested_le (h : Host) (t : Tables Ty Attr Loc) (isIsolated : Bool)
    (defs : List (String × Site)) (level : ℕ) (r : MlirRegion Ty Attr Loc) :
    (encodeRegion h t
      (valuesOf (((if isIsolated then [] else defs) ++ r.defs level).map Prod.fst)) r).length ≤
      (encodeNested h t isIsolated (valuesOf (defs.map Prod.fst)) r).length := by
  rw [encodeNested_eq level]
  cases isIsolated with
  | true =>
    rw [if_pos rfl, if_pos rfl, encodeSection, List.length_append, List.length_append]
    omega
  | false => exact le_rfl

/-- A section is read back when its content is. -/
theorem reads_section {α : Type} {p : Reader α} {content : List UInt8} {a : α}
    (hlen : content.length < bound h) (hp : Reads p content a) :
    Reads (readSection p) (encodeSection h irSectionId content) a := by
  have hid : Reads byte (unsignedInt8 irSectionId) 4 := Reads.byte 4
  rw [readSection, encodeSection]
  refine hid.andThen ?_
  rw [if_pos rfl]
  exact (reads_count hlen).andThen hp.exactly

/-- All regions of an operation are read, each as `holds` says. -/
theorem reads_regions {p : Reader ReadOp} {name : String} {env : ValueEnv}
    {regions : List (MlirRegion Ty Attr Loc)}
    {holds : MlirRegion Ty Attr Loc → ReadRegion → Prop} (hlen : regions.length < bound h)
    (hregions : ∀ r ∈ regions, ∃ read,
      Reads (if isIsolatedOp name then readSection (readRegion p) else readRegion p)
        (encodeNested h t (isIsolatedOp name) env r) read ∧ holds r read) :
    ∃ read : Bool × List ReadRegion, Reads (readRegions p (!regions.isEmpty))
      (if regions.isEmpty then []
        else encodeVarInt h (withFlag h regions.length (isIsolatedOp name)) ++
          encodeRegions h t (isIsolatedOp name) env regions) read ∧
      List.Forall₂ (fun r readR => read.1 = isIsolatedOp name ∧ holds r readR) regions read.2 := by
  cases regions with
  | nil => exact ⟨(false, []), Reads.done _, .nil⟩
  | cons r regions =>
    obtain ⟨reads, hreads, hall⟩ := Reads.many hregions
    refine ⟨(isIsolatedOp name, reads), ?_, hall.imp fun _ _ hholds => ⟨rfl, hholds⟩⟩
    have hflag := reads_withFlag hlen (isIsolatedOp name)
    rw [encodeRegions_eq, List.isEmpty_cons, Bool.not_false, readRegions, if_pos rfl,
      if_neg Bool.false_ne_true]
    refine hflag.andThen ?_
    rw [testBit_flag, div_flag]
    exact hreads.finish rfl

theorem reads_nested (isIsolated : Bool) {fuel level : ℕ} {defs : List (String × Site)}
    {r : MlirRegion Ty Attr Loc} (ht : t.Small h) (hnames : r.names.length < bound h)
    (hblocks : r.allBlocks.length < bound h)
    (hcontent : (encodeRegion h t (valuesOf r.names) r).length < bound h)
    (hparts : ∀ blk ∈ r.allBlocks, blk.args.length < bound h ∧ blk.ops.length < bound h)
    (hnested : ∀ blk ∈ r.allBlocks, ∀ o ∈ blk.ops, ∃ read,
      Reads (readOp fuel) (encodeOp h t
        (valuesOf (((if isIsolated then [] else defs) ++ r.defs level).map Prod.fst))
        (blocksOf r.labels) o) read ∧
      Agrees fuel ((if isIsolated then [] else defs) ++ r.defs level)
        (((if isIsolated then [] else defs) ++ r.defs level).map Prod.snd) r.labels level o read) :
    ∃ read : ReadRegion,
      Reads (if isIsolated then readSection (readRegion (readOp fuel))
          else readRegion (readOp fuel))
        (encodeNested h t isIsolated (valuesOf (defs.map Prod.fst)) r) read ∧
      RegionAgrees level
        (Agrees fuel ((if isIsolated then [] else defs) ++ r.defs level)
          ((if isIsolated then [] else defs.map Prod.snd) ++ read.sites level) r.labels level)
        r read := by
  obtain ⟨read, hread, hagrees⟩ := regionAgrees_of ht hnames hblocks hparts hnested
  refine ⟨read, ?_, ?_⟩
  · rw [encodeNested_eq level]
    cases isIsolated with
    | true =>
      refine reads_section ?_ hread
      have hscope : ((if true then [] else defs) ++ r.defs level).map Prod.fst = r.names :=
        defs_fst level r
      rw [hscope]
      exact hcontent
    | false => exact hread
  · cases isIsolated with
    | true => exact hagrees
    | false => exact hagrees

/-- The regions of an operation take fewer bytes than the operation. -/
theorem length_encodeRegions_lt (h : Host) (t : Tables Ty Attr Loc) (env : ValueEnv)
    (blockEnv : BlockEnv) {op : MlirOp Ty Attr Loc} (hne : op.regions ≠ []) :
    (encodeRegions h t (isIsolatedOp op.name) env op.regions).length <
      (encodeOp h t env blockEnv op).length := by
  obtain ⟨name, operands, results, attrs, regions, isTerminator, loc, successors⟩ := op
  have hempty : regions.isEmpty = false := List.isEmpty_eq_false_iff.mpr hne
  rw [encodeOp, hempty, if_neg Bool.false_ne_true]
  simp only [List.length_append, unsignedInt8, List.length_singleton]
  omega

theorem toNat_mod {k : ℕ} (hk : k < bound h) : ((k : ℤ) % 2 ^ 64).toNat = k := by
  have hle := bound_le h
  omega

/-- The index of a name in scope is small. -/
theorem small_lookupValue {defs : List (String × Site)} {x : String} (hlt : defs.length < bound h)
    (hx : (defs.map Prod.fst).count x = 1) :
    Small h (lookupValue x (valuesOf (defs.map Prod.fst))) := by
  obtain ⟨k, hk, hkdefs, -⟩ := lookupValue_valuesOf hx
  rw [hk]
  exact small_nat (hkdefs.trans hlt)

/-- A label of no block is written as the entry block. -/
theorem small_successor {labels : List String} (hlt : labels.length < bound h) (s : String) :
    Small h (((blocksOf labels).get s).getD 0) := by
  by_cases hs : s ∈ labels
  · obtain ⟨k, hk, hklabels, -⟩ := get_blocksOf hs
    rw [hk, Option.getD_some]
    exact small_nat (hklabels.trans hlt)
  · rw [get_blocksOf_of_notMem hs]
    exact small_nat (Nat.zero_lt_of_lt hlt)

/-- Every operand's index leads back to the site that defines it. -/
theorem resolves_operands {defs : List (String × Site)} {operands : List String}
    (hlt : defs.length < bound h) (hoperands : ∀ x ∈ operands, (defs.map Prod.fst).count x = 1) :
    List.Forall₂ (Resolves defs (defs.map Prod.snd)) operands
      (operands.map fun x => (lookupValue x (valuesOf (defs.map Prod.fst)) % 2 ^ 64).toNat) := by
  rw [List.forall₂_map_right_iff, List.forall₂_same]
  intro x hx
  obtain ⟨k, hk, hkdefs, hresolves⟩ := lookupValue_valuesOf (hoperands x hx)
  rw [hk, toNat_mod (hkdefs.trans hlt)]
  exact hresolves

/-- Every successor's index leads back to the block with its label. -/
theorem resolves_successors {labels : List String} (hlt : labels.length < bound h)
    (successors : List String) :
    List.Forall₂ (fun s k => cleanLabel s ∈ labels → labels[k]? = some (cleanLabel s)) successors
      (successors.map fun s =>
        (((blocksOf labels).get (cleanLabel s)).getD 0 % 2 ^ 64).toNat) := by
  rw [List.forall₂_map_right_iff, List.forall₂_same]
  intro s _ hs
  obtain ⟨k, hk, hklabels, hlabel⟩ := get_blocksOf hs
  rw [hk, Option.getD_some, toNat_mod (hklabels.trans hlt)]
  exact hlabel

/-- The induction is on the fuel, and an operation inside another takes fewer bytes. -/
theorem reads_op (ht : t.Small h) (fuel : ℕ) {defs : List (String × Site)} {labels : List String}
    (level : ℕ) {op : MlirOp Ty Attr Loc}
    (hfuel : (encodeOp h t (valuesOf (defs.map Prod.fst)) (blocksOf labels) op).length ≤ fuel)
    (hscoped : WellScoped (defs.map Prod.fst) op)
    (hfits : Fits h t defs.length labels.length op) :
    ∃ read, Reads (readOp fuel)
        (encodeOp h t (valuesOf (defs.map Prod.fst)) (blocksOf labels) op) read ∧
      Agrees fuel defs (defs.map Prod.snd) labels level op read := by
  induction fuel generalizing defs labels level op with
  | zero =>
    -- the mask alone is a byte
    obtain ⟨name, operands, results, attrs, regions, isTerminator, loc, successors⟩ := op
    rw [encodeOp, List.length_append, List.length_append, unsignedInt8,
      List.length_singleton] at hfuel
    omega
  | succ fuel ih =>
    obtain ⟨hoperands, hnestedScoped⟩ := hscoped
    obtain ⟨⟨hvalues, hblocks⟩, ⟨hres, hops, hsucc, hregs⟩, hregions, hparts, hnestedFits⟩ := hfits
    have hinner : ∀ r ∈ op.regions, ∃ read : ReadRegion,
        Reads (if isIsolatedOp op.name then readSection (readRegion (readOp fuel))
          else readRegion (readOp fuel))
          (encodeNested h t (isIsolatedOp op.name) (valuesOf (defs.map Prod.fst)) r) read ∧
        RegionAgrees (level + 1)
          (Agrees fuel ((if isIsolatedOp op.name then [] else defs) ++ r.defs (level + 1))
            ((if isIsolatedOp op.name then [] else defs.map Prod.snd) ++ read.sites (level + 1))
            r.labels (level + 1)) r read := by
      intro r hr
      obtain ⟨hnames, hcount, hcontent⟩ := hregions r hr
      refine reads_nested (isIsolatedOp op.name) ht hnames hcount hcontent (hparts r hr) ?_
      intro blk hblk o ho
      refine ih (level + 1) ?_ ?_ ?_
      · -- its bytes are among those of a region, and these among those of the operation around it
        have hinRegion := length_encodeOp_le h t (valuesOf (((if isIsolatedOp op.name then [] else
          defs) ++ r.defs (level + 1)).map Prod.fst)) hblk ho
        have hinNested := length_encodeNested_le h t (isIsolatedOp op.name) defs (level + 1) r
        have hinRegions := length_le_flatMap
          (f := encodeNested h t (isIsolatedOp op.name) (valuesOf (defs.map Prod.fst))) hr
        have hinOp := length_encodeRegions_lt h t (valuesOf (defs.map Prod.fst)) (blocksOf labels)
          (List.ne_nil_of_mem hr)
        rw [← encodeRegions_eq] at hinRegions
        omega
      · -- an isolated operation hides the names around it
        rw [List.map_append, defs_fst, apply_ite (List.map Prod.fst)]
        exact hnestedScoped r hr blk hblk o ho
      · have hlabels : r.labels.length = r.allBlocks.length := by
          simp [MlirRegion.labels, MlirRegion.allBlocks]
        have hdefs : (r.defs (level + 1)).length = r.names.length := by
          rw [← defs_fst (level + 1), List.length_map]
        rw [List.length_append, apply_ite List.length, hlabels, hdefs]
        exact hnestedFits r hr blk hblk o ho
    obtain ⟨name, operands, results, attrs, regions, isTerminator, loc, successors⟩ := op
    -- every part of the operation is read as it was written
    obtain ⟨mask, hmask, hattrs, hresults, hoperand, hsuccessor, hregion⟩ := mask_bits h
      (!(bytecodeAttrs attrs).toList.isEmpty) (!results.isEmpty) (!operands.isEmpty)
      (!successors.isEmpty) (!regions.isEmpty)
    obtain ⟨readA, hreadAttrs⟩ := reads_attrs ht attrs
    obtain ⟨readR, hreadRegions, hall⟩ := reads_regions hregs hinner
    have hreadResults := reads_each hres fun (r : String × Ty) _ => ht.typeIndex r.2
    have hreadOperands := reads_each hops fun x hx => small_lookupValue hvalues (hoperands x hx)
    have hreadSuccessors := reads_each hsucc fun s _ => small_successor hblocks (cleanLabel s)
    rw [← hattrs] at hreadAttrs
    rw [← hresults] at hreadResults
    rw [← hoperand] at hreadOperands
    rw [← hsuccessor] at hreadSuccessors
    rw [← hregion] at hreadRegions
    have hname := reads_small (ht.opIndex name)
    have hloc := reads_small (ht.locIndex loc)
    refine ⟨⟨(t.opIndex name % 2 ^ 64).toNat, (t.locIndex loc % 2 ^ 64).toNat, readA,
      results.map fun r => (t.typeIndex r.2 % 2 ^ 64).toNat,
      operands.map fun x => (lookupValue x (valuesOf (defs.map Prod.fst)) % 2 ^ 64).toNat,
      successors.map fun s => (((blocksOf labels).get (cleanLabel s)).getD 0 % 2 ^ 64).toNat,
      readR.1, readR.2⟩, ?_, resolves_operands hvalues hoperands,
      resolves_successors hblocks successors, List.length_map _, ?_⟩
    · rw [encodeOp, readOp, hmask]
      exact hname.andThen ((Reads.byte mask).andThen (hloc.andThen (hreadAttrs.andThen
        (hreadResults.andThen (hreadOperands.andThen (hreadSuccessors.andThen
          (hreadRegions.finish rfl)))))))
    · refine hall.imp ?_
      rintro r read ⟨hisolated, hagrees⟩
      refine ⟨hisolated, ?_⟩
      rw [hisolated]
      exact hagrees

/-- **RESOLUTION**: the reader takes the bytes of an operation, whatever follows them, and every
    index in them leads to what the operation names there. -/
theorem encodeOp_resolves (h : Host) (t : Tables Ty Attr Loc) (ht : t.Small h)
    (defs : List (String × Site)) (labels : List String) (level : ℕ) (op : MlirOp Ty Attr Loc)
    (hscoped : WellScoped (defs.map Prod.fst) op) (hfits : Fits h t defs.length labels.length op)
    (rest : List UInt8) :
    ∃ read fuel,
      fuel = (encodeOp h t (valuesOf (defs.map Prod.fst)) (blocksOf labels) op).length ∧
      readOp fuel (encodeOp h t (valuesOf (defs.map Prod.fst)) (blocksOf labels) op ++ rest) =
        some (read, rest) ∧
      Agrees fuel defs (defs.map Prod.snd) labels level op read := by
  obtain ⟨read, hread, hagrees⟩ := reads_op ht _ level le_rfl hscoped hfits
  exact ⟨read, _, rfl, hread rest, hagrees⟩

/-- An operation without regions and attributes. -/
def flatOp (name : String) (operands results : List String) (isTerminator : Bool)
    (successors : List String) : MlirOp Unit Unit Unit where
  name := name
  operands := operands
  results := results.map (·, ())
  attrs := Dict.empty
  regions := []
  isTerminator := isTerminator
  loc := ()
  successors := successors

/-- A choice between a constant of its own and a value from outside. -/
def ifOp : MlirOp Unit Unit Unit :=
  { flatOp "scf.if" ["c"] ["r"] false [] with
    regions := [⟨⟨[], [flatOp "arith.constant" [] ["x"] false []],
        flatOp "scf.yield" ["x"] [] true []⟩, []⟩,
      ⟨⟨[], [], flatOp "scf.yield" ["a"] [] true []⟩, []⟩] }

/-- A function that passes the value chosen on to its second block, which returns it. -/
def funcOp : MlirOp Unit Unit Unit :=
  { flatOp "func.func" [] [] false [] with
    regions := [⟨⟨[("c", ()), ("a", ())], [ifOp], flatOp "cf.br" ["r"] [] true ["^bb1"]⟩,
      [("bb1", ⟨[("d", ())], [], flatOp "func.return" ["d"] [] true []⟩)]⟩] }

/-- Tables that answer zero. -/
def zeroTables : Tables Unit Unit Unit where
  opIndex _ := 0
  typeIndex _ := 0
  locIndex _ := 0
  dictAttrIndex _ := 0
  unknown := ()

/-- A flat operation asks for its operands alone. -/
theorem wellScoped_flatOp {names operands : List String} (h : ∀ x ∈ operands, names.count x = 1)
    (name : String) (results : List String) (isTerminator : Bool) (successors : List String) :
    WellScoped names (flatOp name operands results isTerminator successors) :=
  ⟨h, fun _ hr => absurd hr List.not_mem_nil⟩

theorem fits_flatOp {values blocks : ℕ} (hscope : values < bound .native ∧ blocks < bound .native)
    (name : String) {operands results successors : List String} (isTerminator : Bool)
    (hlists : results.length < bound .native ∧ operands.length < bound .native ∧
      successors.length < bound .native) :
    Fits .native zeroTables values blocks
      (flatOp name operands results isTerminator successors) := by
  refine ⟨hscope, ⟨?_, hlists.2.1, hlists.2.2, Nat.two_pow_pos _⟩, ?_, ?_, ?_⟩
  · show (results.map fun x => (x, ())).length < bound .native
    rw [List.length_map]
    exact hlists.1
  all_goals exact fun _ hr => absurd hr List.not_mem_nil

theorem wellScoped_ifOp : WellScoped ["c", "a", "r", "d"] ifOp := by
  refine ⟨by decide, List.forall_mem_cons.mpr ⟨?_, List.forall_mem_singleton.mpr ?_⟩⟩
  · refine List.forall_mem_singleton.mpr (List.forall_mem_cons.mpr ⟨?_, ?_⟩)
    · exact wellScoped_flatOp (by decide) _ _ _ _
    · exact List.forall_mem_singleton.mpr (wellScoped_flatOp (by decide) _ _ _ _)
  · exact List.forall_mem_singleton.mpr
      (List.forall_mem_singleton.mpr (wellScoped_flatOp (by decide) _ _ _ _))

theorem wellScoped_funcOp : WellScoped [] funcOp := by
  refine ⟨by decide, List.forall_mem_singleton.mpr (List.forall_mem_cons.mpr ⟨?_, ?_⟩)⟩
  · exact List.forall_mem_cons.mpr ⟨wellScoped_ifOp,
      List.forall_mem_singleton.mpr (wellScoped_flatOp (by decide) _ _ _ _)⟩
  · exact List.forall_mem_singleton.mpr
      (List.forall_mem_singleton.mpr (wellScoped_flatOp (by decide) _ _ _ _))

theorem fits_ifOp : Fits .native zeroTables 4 2 ifOp := by
  refine ⟨by decide, by decide, ?_, ?_, ?_⟩
  · decide +kernel
  · decide +kernel
  · refine List.forall_mem_cons.mpr ⟨?_, List.forall_mem_singleton.mpr ?_⟩
    · refine List.forall_mem_singleton.mpr (List.forall_mem_cons.mpr ⟨?_, ?_⟩)
      · exact fits_flatOp (by decide) _ _ (by decide)
      · exact List.forall_mem_singleton.mpr (fits_flatOp (by decide) _ _ (by decide))
    · exact List.forall_mem_singleton.mpr
        (List.forall_mem_singleton.mpr (fits_flatOp (by decide) _ _ (by decide)))

theorem fits_funcOp : Fits .native zeroTables 0 0 funcOp := by
  refine ⟨by decide, by decide, ?_, ?_, ?_⟩
  · decide +kernel
  · decide +kernel
  · refine List.forall_mem_singleton.mpr (List.forall_mem_cons.mpr ⟨?_, ?_⟩)
    · exact List.forall_mem_cons.mpr ⟨fits_ifOp,
        List.forall_mem_singleton.mpr (fits_flatOp (by decide) _ _ (by decide))⟩
    · exact List.forall_mem_singleton.mpr
        (List.forall_mem_singleton.mpr (fits_flatOp (by decide) _ _ (by decide)))

/-- A choice among two regions inside a function of two blocks is read back. -/
theorem encodeOp_resolves_funcOp : ∃ read fuel,
    readOp fuel (encodeOp .native zeroTables (valuesOf []) (blocksOf []) funcOp ++ []) =
      some (read, []) ∧ Agrees fuel [] [] [] 0 funcOp read := by
  have hsmall : Small .native 0 := small_nat (n := 0) (Nat.two_pow_pos _)
  have ht : zeroTables.Small .native :=
    ⟨fun _ => hsmall, fun _ => hsmall, fun _ => hsmall, fun _ => hsmall⟩
  obtain ⟨read, fuel, -, hread, hagrees⟩ :=
    encodeOp_resolves .native zeroTables ht [] [] 0 funcOp wellScoped_funcOp fits_funcOp []
  exact ⟨read, fuel, hread, hagrees⟩

end IrSection

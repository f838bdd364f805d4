import EcoCompiler.ByteReader
import EcoCompiler.IrSection

/-! # Reading the IR section

    A reader of the bytes that knows no names: it numbers the values as it finds them.

    * `readOp` — what is in the bytes: counts, and the indices of operands and successors;
    * `Site`, `regionSites` — where a value is defined, and the values of a region in their order;
    * `Agrees` — every index leads to the definition, or the block, that the operation names;
    * `WellScoped`, `Fits` — operands are defined once in their scope, and what is counted fits the
      words of the host. -/

namespace IrSection

open ByteReader (Reader andThen many done byte refuse exactly)

/-! ## What is in the bytes -/

mutual

/-- An operation as it is read. -/
structure ReadOp where
  name : ℕ
  loc : ℕ
  attrs : Option ℕ
  results : List ℕ
  operands : List ℕ
  successors : List ℕ
  isolated : Bool
  regions : List ReadRegion

/-- A region as it is read. -/
structure ReadRegion where
  numValues : ℕ
  blocks : List ReadBlock

/-- A block as it is read. -/
structure ReadBlock where
  args : List (ℕ × ℕ)
  ops : List ReadOp

end

/-- A number. -/
def varint : Reader ℕ := PrefixVarInt.decode

/-- A list with its length in front, if it is present. -/
def readEach (present : Bool) : Reader (List ℕ) :=
  if present then andThen varint fun n => many varint n else done []

/-- The index of the attributes, if they are present. -/
def readAttrs (present : Bool) : Reader (Option ℕ) :=
  if present then andThen varint fun n => done (some n) else done none

/-- The type of an argument and its location, which is there where the low bit is set. -/
def readArg : Reader (ℕ × ℕ) :=
  andThen varint fun typeAndLoc =>
    if typeAndLoc % 2 = 1 then andThen varint fun loc => done (typeAndLoc / 2, loc)
    else done (typeAndLoc / 2, 0)

/-- A byte of zero after the arguments: no use-list orders. -/
def readArgs (present : Bool) : Reader (List (ℕ × ℕ)) :=
  if present then
    andThen varint fun n => andThen (many readArg n) fun args =>
      andThen byte fun orders => if orders = 0 then done args else refuse
  else done []

/-- A block, by a reader of operations. -/
def readBlock (readOp : Reader ReadOp) : Reader ReadBlock :=
  andThen varint fun header => andThen (readArgs (header.testBit 0)) fun args =>
    andThen (many readOp (header / 2)) fun ops => done ⟨args, ops⟩

/-- A region, by a reader of operations. -/
def readRegion (readOp : Reader ReadOp) : Reader ReadRegion :=
  andThen varint fun numBlocks => andThen varint fun numValues =>
    andThen (many (readBlock readOp) numBlocks) fun blocks => done ⟨numValues, blocks⟩

/-- The contents of an IR section. -/
def readSection {α : Type} (p : Reader α) : Reader α :=
  andThen byte fun id => if id = 4 then andThen varint fun n => exactly n p else refuse

/-- The regions of an operation, if they are present. -/
def readRegions (readOp : Reader ReadOp) (present : Bool) : Reader (Bool × List ReadRegion) :=
  if present then
    andThen varint fun n =>
      andThen (many (if n.testBit 0 then readSection (readRegion readOp) else readRegion readOp)
        (n / 2)) fun regions => done (n.testBit 0, regions)
  else done (false, [])

/-- An operation, of a number of bytes at most. -/
def readOp : ℕ → Reader ReadOp
  | 0 => refuse
  | fuel + 1 =>
    andThen varint fun name => andThen byte fun mask => andThen varint fun loc =>
      andThen (readAttrs (mask.toNat.testBit 0)) fun attrs =>
      andThen (readEach (mask.toNat.testBit 1)) fun results =>
      andThen (readEach (mask.toNat.testBit 2)) fun operands =>
      andThen (readEach (mask.toNat.testBit 3)) fun successors =>
      andThen (readRegions (readOp fuel) (mask.toNat.testBit 4)) fun regions =>
      done ⟨name, loc, attrs, results, operands, successors, regions.1, regions.2⟩

/-! ## Where values are defined -/

/-- The definition of a value: an argument of a block, or a result of one of its operations, in
    the region that is so many levels down. -/
structure Site where
  level : ℕ
  block : ℕ
  op : Option ℕ
  index : ℕ

section

variable {α : Type}

/-- The values of a block in their order: its arguments, then the results of its operations. -/
def blockSites (level block : ℕ) (args : List α) (results : List (List α)) : List (α × Site) :=
  args.mapIdx (fun i a => (a, ⟨level, block, none, i⟩)) ++
    (results.mapIdx fun k as => as.mapIdx fun i a => (a, ⟨level, block, some k, i⟩)).flatten

/-- The values of a region in their order. -/
def regionSites (level : ℕ) (blocks : List (List α × List (List α))) : List (α × Site) :=
  (blocks.mapIdx fun block values => blockSites level block values.1 values.2).flatten

end

variable {Ty Attr Loc : Type}

/-- The operations that are written for a block. -/
def MlirBlock.ops (blk : MlirBlock Ty Attr Loc) : List (MlirOp Ty Attr Loc) :=
  (blk.body.filter fun op => !op.isTerminator) ++ [blk.terminator]

/-- The entry block, then the labelled blocks. -/
def MlirRegion.allBlocks (r : MlirRegion Ty Attr Loc) : List (MlirBlock Ty Attr Loc) :=
  r.entry :: r.blocks.map Prod.snd

/-- The labels of the blocks, the entry's first. -/
def MlirRegion.labels (r : MlirRegion Ty Attr Loc) : List String := "bb0" :: r.blocks.map Prod.fst

/-- The names that a block defines. -/
def MlirBlock.values (blk : MlirBlock Ty Attr Loc) : List String × List (List String) :=
  (blk.args.map Prod.fst, blk.ops.map fun op => op.results.map Prod.fst)

/-- The definitions of a region, with their names. -/
def MlirRegion.defs (level : ℕ) (r : MlirRegion Ty Attr Loc) : List (String × Site) :=
  regionSites level (r.allBlocks.map MlirBlock.values)

/-- The values that a region defines, in the order of their numbers. -/
def MlirRegion.names (r : MlirRegion Ty Attr Loc) : List String := (r.defs 0).map Prod.fst

/-- The definitions that a reader finds in a region. -/
def ReadRegion.sites (level : ℕ) (r : ReadRegion) : List Site :=
  (regionSites level (r.blocks.map fun b =>
    (b.args.map fun _ => (), b.ops.map fun op => op.results.map fun _ => ()))).map Prod.snd

/-! ## What is promised -/

/-- What is read of a region, where `R` is what is read of an operation in it. -/
structure RegionAgrees (level : ℕ) (R : MlirOp Ty Attr Loc → ReadOp → Prop)
    (r : MlirRegion Ty Attr Loc) (read : ReadRegion) : Prop where
  numValues : read.numValues = (read.sites level).length
  blocks : List.Forall₂ (fun blk (b : ReadBlock) => b.args.length = blk.args.length ∧
    List.Forall₂ R blk.ops b.ops) r.allBlocks read.blocks

/-- The operand `x` is read as an index `k` that leads to the definition of `x`. -/
def Resolves (defs : List (String × Site)) (sites : List Site) (x : String) (k : ℕ) : Prop :=
  ∃ site, defs.lookup x = some site ∧ sites[k]? = some site

/-- What is read of an operation, `fuel` levels deep, leads where its names do: `defs` are the
    definitions in scope, `sites` those that the reader has numbered. -/
def Agrees : ℕ → List (String × Site) → List Site → List String → ℕ →
    MlirOp Ty Attr Loc → ReadOp → Prop
  | 0, _, _, _, _, _, _ => False
  | fuel + 1, defs, sites, labels, level, op, read =>
    List.Forall₂ (Resolves defs sites) op.operands read.operands ∧
    List.Forall₂ (fun s k => cleanLabel s ∈ labels → labels[k]? = some (cleanLabel s))
      op.successors read.successors ∧
    read.results.length = op.results.length ∧
    List.Forall₂ (fun r (readR : ReadRegion) =>
      read.isolated = isIsolatedOp op.name ∧
      RegionAgrees (level + 1)
        (Agrees fuel
          ((if isIsolatedOp op.name then [] else defs) ++ r.defs (level + 1))
          ((if read.isolated then [] else sites) ++ readR.sites (level + 1))
          r.labels (level + 1)) r readR) op.regions read.regions

/-- Each operand is defined in its scope, and once. -/
inductive WellScoped : List String → MlirOp Ty Attr Loc → Prop where
  | mk {names : List String} {op : MlirOp Ty Attr Loc}
      (operands : ∀ x ∈ op.operands, names.count x = 1)
      (nested : ∀ r ∈ op.regions, ∀ blk ∈ r.allBlocks, ∀ o ∈ blk.ops,
        WellScoped ((if isIsolatedOp op.name then [] else names) ++ r.names) o) :
      WellScoped names op

section

variable (h : Host) (t : Tables Ty Attr Loc)

/-- A quarter of the host's words. -/
def bound : ℕ := 2 ^ (h.width - 2)

/-- An index that the host can shift by one. -/
def Small (x : ℤ) : Prop := -1 ≤ x ∧ x < bound h

structure Tables.Small : Prop where
  opIndex : ∀ name, IrSection.Small h (t.opIndex name)
  typeIndex : ∀ ty, IrSection.Small h (t.typeIndex ty)
  locIndex : ∀ loc, IrSection.Small h (t.locIndex loc)
  dictAttrIndex : ∀ attrs, IrSection.Small h (t.dictAttrIndex attrs)

/-- The value environment and the block indices after these names and labels. -/
def valuesOf (names : List String) : ValueEnv :=
  names.foldl (fun env name => registerValue name env) emptyValueEnv

/-- The index of each label. -/
def blocksOf (labels : List String) : BlockEnv :=
  Dict.fromList (labels.mapIdx fun i label => (label, (i : ℤ)))

/-- What is counted in an operation, in a scope of `values` values and `blocks` blocks, fits the
    words of the host, as the length of any list in its memory does. -/
inductive Fits : ℕ → ℕ → MlirOp Ty Attr Loc → Prop where
  | mk {values blocks : ℕ} {op : MlirOp Ty Attr Loc}
      (scope : values < bound h ∧ blocks < bound h)
      (lists : op.results.length < bound h ∧ op.operands.length < bound h ∧
        op.successors.length < bound h ∧ op.regions.length < bound h)
      (regions : ∀ r ∈ op.regions, r.names.length < bound h ∧ r.allBlocks.length < bound h ∧
        (encodeRegion h t (valuesOf r.names) r).length < bound h)
      (parts : ∀ r ∈ op.regions, ∀ blk ∈ r.allBlocks,
        blk.args.length < bound h ∧ blk.ops.length < bound h)
      (nested : ∀ r ∈ op.regions, ∀ blk ∈ r.allBlocks, ∀ o ∈ blk.ops,
        Fits ((if isIsolatedOp op.name then 0 else values) + r.names.length) r.allBlocks.length o) :
      Fits values blocks op

end

end IrSection

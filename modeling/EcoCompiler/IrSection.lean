import EcoCompiler.Dict
import EcoCompiler.VarInt

/-! # The IR section

    `Mlir.Bytecode.IrSection`, with the operations of `Mlir.Mlir`.  The tables of the other sections
    are what they answer, an encoder is the bytes it writes, and the labelled blocks of a region are
    the list of the entries of their `OrderedDict`.

    * `numberRegion` — gives a value index to each value that a region's blocks define;
    * `encodeRegion`, `encodeBlock`, `encodeOp` — write them;
    * `countRegionValues` — the number of values written for a region. -/

namespace IrSection

open VarInt (encodeVarInt unsignedInt8)

/-! ## Operations -/

mutual

/-- `MlirOp`. -/
structure MlirOp (Ty Attr Loc : Type) where
  name : String
  operands : List String
  results : List (String × Ty)
  attrs : Dict String Attr
  regions : List (MlirRegion Ty Attr Loc)
  isTerminator : Bool
  loc : Loc
  successors : List String

/-- `MlirBlock`. -/
structure MlirBlock (Ty Attr Loc : Type) where
  args : List (String × Ty)
  body : List (MlirOp Ty Attr Loc)
  terminator : MlirOp Ty Attr Loc

/-- `MlirRegion`: the entry block, and the blocks with a label. -/
structure MlirRegion (Ty Attr Loc : Type) where
  entry : MlirBlock Ty Attr Loc
  blocks : List (String × MlirBlock Ty Attr Loc)

end

variable {Ty Attr Loc : Type}

/-- What `DialectRegistry` and `AttrTypeTable` answer. -/
structure Tables (Ty Attr Loc : Type) where
  opIndex : String → ℤ
  typeIndex : Ty → ℤ
  locIndex : Loc → ℤ
  dictAttrIndex : Dict String Attr → ℤ
  /-- `Mlir.Loc.unknown`. -/
  unknown : Loc

/-! ## SSA value environment -/

/-- `ValueEnv`: the indexes of the values defined so far. -/
structure ValueEnv where
  valueMap : Dict String ℤ
  nextValueIndex : ℤ

/-- `emptyValueEnv`. -/
def emptyValueEnv : ValueEnv := ⟨Dict.empty, 0⟩

/-- `registerValue`: a value gets the next index. -/
def registerValue (name : String) (env : ValueEnv) : ValueEnv where
  valueMap := env.valueMap.insert name env.nextValueIndex
  nextValueIndex := env.nextValueIndex + 1

/-- `lookupValue`. -/
def lookupValue (name : String) (env : ValueEnv) : ℤ := (env.valueMap.get name).getD (-1)

/-- `registerValues`. -/
def registerValues (pairs : List (String × Ty)) (env : ValueEnv) : ValueEnv :=
  pairs.foldl (fun acc pair => registerValue pair.1 acc) env

/-! ## Value numbering -/

/-- `numberOp`. -/
def numberOp (op : MlirOp Ty Attr Loc) (env : ValueEnv) : ValueEnv := registerValues op.results env

/-- `numberBlock`: the arguments, the body without terminators, and the terminator. -/
def numberBlock (env : ValueEnv) (blk : MlirBlock Ty Attr Loc) : ValueEnv :=
  let env1 := registerValues blk.args env
  let nonTermBody := blk.body.filter fun op => !op.isTerminator
  let env2 := nonTermBody.foldl (fun acc op => numberOp op acc) env1
  numberOp blk.terminator env2

/-- `numberRegion`. -/
def numberRegion (env : ValueEnv) (r : MlirRegion Ty Attr Loc) : ValueEnv :=
  let env1 := numberBlock env r.entry
  r.blocks.foldl (fun acc entry => numberBlock acc entry.2) env1

/-! ## Block indices -/

/-- `BlockEnv`: the index of the block of each label. -/
abbrev BlockEnv := Dict String ℤ

/-- `buildBlockEnv`. -/
def buildBlockEnv (r : MlirRegion Ty Attr Loc) : BlockEnv :=
  Dict.fromList (("bb0", 0) :: r.blocks.mapIdx fun i entry => (entry.1, (i : ℤ) + 1))

/-- `countRegionValues`. -/
def countRegionValues (r : MlirRegion Ty Attr Loc) : ℤ :=
  let countBlock (blk : MlirBlock Ty Attr Loc) : ℤ :=
    blk.args.length
      + (blk.body.filter fun op => !op.isTerminator).foldl
          (fun (acc : ℤ) op => acc + op.results.length) 0
      + blk.terminator.results.length
  countBlock r.entry + r.blocks.foldl (fun (acc : ℤ) entry => acc + countBlock entry.2) 0

/-! ## Encoding -/

def kHasAttrs : ℤ := 0x01
def kHasResults : ℤ := 0x02
def kHasOperands : ℤ := 0x04
def kHasSuccessors : ℤ := 0x08
def kHasInlineRegions : ℤ := 0x10

/-- `AttrType.bytecodeAttrs`. -/
def bytecodeAttrs (attrs : Dict String Attr) : Dict String Attr := attrs.remove "_operand_types"

/-- `isIsolatedOp`. -/
def isIsolatedOp (name : String) : Bool := name == "func.func" || name == "builtin.module"

/-- The label of a successor, with one leading caret removed. -/
def cleanLabel (label : String) : String :=
  if label.startsWith "^" then String.ofList (label.toList.drop 1) else label

section

variable (h : Host) (t : Tables Ty Attr Loc)

/-- A number with a flag in its low bit. -/
def withFlag (n : ℤ) (flag : Bool) : ℤ := h.or (h.shiftLeftBy 1 n) (if flag then 1 else 0)

/-- `encodingMask`. -/
def encodingMask (hasAttrs hasResults hasOperands hasSuccessors hasRegions : Bool) : ℤ :=
  let mask := if hasAttrs then kHasAttrs else 0
  let mask := h.or (if hasResults then kHasResults else 0) mask
  let mask := h.or (if hasOperands then kHasOperands else 0) mask
  let mask := h.or (if hasSuccessors then kHasSuccessors else 0) mask
  h.or (if hasRegions then kHasInlineRegions else 0) mask

/-- The number of the values, then each of them; nothing where there are none. -/
def encodeEach {α : Type} (encode : α → List UInt8) (xs : List α) : List UInt8 :=
  if xs.isEmpty then [] else encodeVarInt h xs.length ++ xs.flatMap encode

/-- `encodeBlockArgs`. -/
def encodeBlockArgs (args : List (String × Ty)) : List UInt8 :=
  encodeVarInt h args.length ++
    ((args.flatMap fun arg =>
      encodeVarInt h (withFlag h (t.typeIndex arg.2) true) ++
        encodeVarInt h (t.locIndex t.unknown)) ++
    unsignedInt8 0)

/-- `Section.encodeSection`. -/
def encodeSection (id : ℤ) (contentBytes : List UInt8) : List UInt8 :=
  unsignedInt8 id ++ (encodeVarInt h contentBytes.length ++ contentBytes)

/-- `Section.sectionId.ir`. -/
def irSectionId : ℤ := 4

/-- The index of the block that a label names. -/
def encodeSuccessor (blockEnv : BlockEnv) (label : String) : List UInt8 :=
  encodeVarInt h ((blockEnv.get (cleanLabel label)).getD 0)

mutual

/-- `encodeOp`. -/
def encodeOp (valueEnv : ValueEnv) (blockEnv : BlockEnv) : MlirOp Ty Attr Loc → List UInt8
  | ⟨name, operands, results, attrs, regions, _, loc, successors⟩ =>
    encodeVarInt h (t.opIndex name) ++
      (unsignedInt8 (encodingMask h (!(bytecodeAttrs attrs).toList.isEmpty) (!results.isEmpty)
          (!operands.isEmpty) (!successors.isEmpty) (!regions.isEmpty)) ++
      (encodeVarInt h (t.locIndex loc) ++
      ((if (bytecodeAttrs attrs).toList.isEmpty then []
        else encodeVarInt h (t.dictAttrIndex (bytecodeAttrs attrs))) ++
      (encodeEach h (fun result => encodeVarInt h (t.typeIndex result.2)) results ++
      (encodeEach h (fun operand => encodeVarInt h (lookupValue operand valueEnv)) operands ++
      (encodeEach h (encodeSuccessor h blockEnv) successors ++
      (if regions.isEmpty then []
        else encodeVarInt h (withFlag h regions.length (isIsolatedOp name)) ++
          encodeRegions (isIsolatedOp name) valueEnv regions)))))))

/-- The regions of an operation. -/
def encodeRegions (isIsolated : Bool) (valueEnv : ValueEnv) :
    List (MlirRegion Ty Attr Loc) → List UInt8
  | [] => []
  | region :: regions =>
    (if isIsolated then
      encodeSection h irSectionId (encodeRegion (numberRegion emptyValueEnv region) region)
    else encodeRegion (numberRegion valueEnv region) region) ++
      encodeRegions isIsolated valueEnv regions

/-- `encodeRegion`. -/
def encodeRegion (valueEnv : ValueEnv) : MlirRegion Ty Attr Loc → List UInt8
  | ⟨entry, blocks⟩ =>
    encodeVarInt h (1 + blocks.length) ++
      (encodeVarInt h (countRegionValues ⟨entry, blocks⟩) ++
      (encodeBlock valueEnv (buildBlockEnv ⟨entry, blocks⟩) entry ++
        encodeBlocks valueEnv (buildBlockEnv ⟨entry, blocks⟩) blocks))

/-- The labelled blocks of a region. -/
def encodeBlocks (valueEnv : ValueEnv) (blockEnv : BlockEnv) :
    List (String × MlirBlock Ty Attr Loc) → List UInt8
  | [] => []
  | (_, blk) :: blocks => encodeBlock valueEnv blockEnv blk ++ encodeBlocks valueEnv blockEnv blocks

/-- `encodeBlock`. -/
def encodeBlock (valueEnv : ValueEnv) (blockEnv : BlockEnv) : MlirBlock Ty Attr Loc → List UInt8
  | ⟨args, body, terminator⟩ =>
    -- a terminator may also be in the body, and is written once
    encodeVarInt h (withFlag h ((body.filter fun op => !op.isTerminator).length + 1)
        (!args.isEmpty)) ++
      ((if args.isEmpty then [] else encodeBlockArgs h t args) ++
      (encodeOps valueEnv blockEnv body ++ encodeOp valueEnv blockEnv terminator))

/-- The operations of a body whose `isTerminator` is not set. -/
def encodeOps (valueEnv : ValueEnv) (blockEnv : BlockEnv) : List (MlirOp Ty Attr Loc) → List UInt8
  | [] => []
  | op :: ops =>
    (if op.isTerminator then [] else encodeOp valueEnv blockEnv op) ++
      encodeOps valueEnv blockEnv ops

end

/-- `encodeFuncOp`. -/
def encodeFuncOp (op : MlirOp Ty Attr Loc) : List UInt8 :=
  encodeOp h t emptyValueEnv Dict.empty op

end

end IrSection

import SmlnjCfg.Cfg.Unpickle
import SmlnjCfg.Lib.Format

/-!
# `SmlnjCfg.Cfg.Format`: the format of a pickle

The layout of the CFG types as data: which fields a constructor has, and which
of them range over an enumeration. `tagScanner` goes through a pickle along it
and collects the tags of the enumerations, whatever they are; `fieldScanner`
collects what the readers make of them.
-/

set_option autoImplicit false

namespace SmlnjCfg

open Asdl LambdaVar

namespace Cfg

/-- The enumerations of the CFG, as names, so that a scanner can report which one a tag belongs
to. -/
inductive Enum where
  | numkind | roundingMode | arithop | pureop | cmpop | fcmpop | fragKind | cInt
  deriving DecidableEq

/-- The constructors of an enumeration. -/
def Enum.Con : Enum → Type
  | .numkind => CfgPrim.Numkind
  | .roundingMode => CfgPrim.RoundingMode
  | .arithop => CfgPrim.Arithop
  | .pureop => CfgPrim.Pureop
  | .cmpop => CfgPrim.Cmpop
  | .fcmpop => CfgPrim.Fcmpop
  | .fragKind => FragKind
  | .cInt => CTypes.CInt

/-- The constructors in the order of their declaration: the `n`-th has the tag `n`. -/
def Enum.cons : (e : Enum) → List e.Con
  | .numkind => ([.INT, .FLT] : List CfgPrim.Numkind)
  | .roundingMode => ([.TO_NEAREST, .TO_NEGINF, .TO_POSINF, .TO_ZERO] : List CfgPrim.RoundingMode)
  | .arithop => ([.IADD, .ISUB, .IMUL, .IDIV, .IREM] : List CfgPrim.Arithop)
  | .pureop => ([.ADD, .SUB, .MUL, .SDIV, .SREM, .UDIV, .UREM, .SHL, .ASHR, .LSHR, .ORB, .XORB,
      .ANDB, .CNTPOP, .CNTLZ, .CNTTZ, .ROTL, .ROTR, .FADD, .FSUB, .FMUL, .FDIV, .FREM, .FMADD,
      .FNEG, .FABS, .FCOPYSIGN, .FSQRT] : List CfgPrim.Pureop)
  | .cmpop => ([.GT, .GTE, .LT, .LTE, .EQL, .NEQ] : List CfgPrim.Cmpop)
  | .fcmpop => ([.F_EQ, .F_ULG, .F_UN, .F_LEG, .F_GT, .F_GE, .F_UGT, .F_UGE, .F_LT, .F_LE,
      .F_ULT, .F_ULE, .F_LG, .F_UE] : List CfgPrim.Fcmpop)
  | .fragKind => ([.STD_FUN, .STD_CONT, .KNOWN_FUN, .INTERNAL] : List FragKind)
  | .cInt => ([.I_char, .I_short, .I_int, .I_long, .I_long_long] : List CTypes.CInt)

/-- A field of a tree that ranges over an enumeration: which one, and the value, declared or
not. -/
structure EnumField where
  enum : Enum
  value : Tagged enum.Con

/-- What the readers make of the tag of an enumeration: a cast, which never fails. -/
def EnumField.ofTag (p : Enum × Nat) : EnumField := ⟨p.1, Tagged.ofTag p.1.cons p.2⟩

/-- The types without constructors of their own, whose readers the scanners take from the pickle
library as they are. -/
inductive Basic where
  | int | uint | bool | string | integer | integerOption | lvar
  deriving DecidableEq

/-- Skip a value of a basic type: the reader runs, with its errors, and the value is dropped. -/
def Basic.skip : Basic → Reader Unit
  | .int => (fun _ => ()) <$> readInt
  | .uint => (fun _ => ()) <$> readUint
  | .bool => (fun _ => ()) <$> readBool
  | .string => (fun _ => ()) <$> readString
  | .integer => (fun _ => ()) <$> readInteger
  | .integerOption => (fun _ => ()) <$> readIntegerOption
  | .lvar => (fun _ => ()) <$> readLvar

/-- The recursive types, the only ones whose formats refer to themselves. -/
inductive Nonterminal where
  | c_type | exp | stm
  deriving DecidableEq

/-- A format of the CFG, over its own basic types, enumerations and recursive types. -/
abbrev Fmt := Format Basic Enum Nonterminal

end Cfg

open Cfg

/-! ### `CTypes` -/

namespace CTypes

/-- `c_type`: one line for each constructor, by its tag. -/
def CType.format : Fmt := .tagged fun
  | 1 => .empty
  | 2 => .empty
  | 3 => .empty
  | 4 => .empty
  | 5 => .enum .cInt
  | 6 => .enum .cInt
  | 7 => .empty
  | 8 => .fields [.ref .c_type, .basic .int]
  | 9 => .seq (.ref .c_type)
  | 10 => .seq (.ref .c_type)
  | tag => .invalid tag "c_type"

/-- `c_proto`: the convention, the result and the parameters. -/
def CProto.format : Fmt := .fields [.basic .string, .ref .c_type, .seq (.ref .c_type)]

end CTypes

/-! ### `CFG_Prim` -/

namespace CfgPrim

/-- `raw_ty`: the kind and the size. -/
def RawTy.format : Fmt := .fields [.enum .numkind, .basic .int]

/-- `alloc`: the constructors differ in the fields besides the descriptor. -/
def Alloc.format : Fmt := .tagged fun
  | 1 => .empty
  | 2 => .fields [.basic .integer, .basic .bool]
  | 3 => .fields [.basic .integer, .basic .int, .seq RawTy.format]
  | 4 => .fields [.basic .integerOption, .basic .int, .basic .int]
  | tag => .invalid tag "alloc"

/-- `arith`: two constructors, each with an enumeration of its own. -/
def Arith.format : Fmt := .tagged fun
  | 1 => .fields [.enum .arithop, .basic .int]
  | 2 => .fields [.enum .roundingMode, .basic .int, .basic .int]
  | tag => .invalid tag "arith"

/-- `pure`: only the first and the last two constructors have an enumeration. -/
def Pure.format : Fmt := .tagged fun
  | 1 => .fields [.enum .pureop, .basic .int]
  | 2 => .fields [.basic .bool, .basic .int, .basic .int]
  | 3 => .fields [.basic .int, .basic .int]
  | 4 => .fields [.basic .int, .basic .int]
  | 5 => .basic .int
  | 6 => .basic .int
  | 7 => .empty
  | 8 => .fields [.enum .numkind, .basic .int]
  | 9 => .fields [.enum .numkind, .basic .int, .basic .int]
  | tag => .invalid tag "pure"

/-- `looker`: the kinds of the two raw loads are the enumerations here. -/
def Looker.format : Fmt := .tagged fun
  | 1 => .empty
  | 2 => .empty
  | 3 => .fields [.enum .numkind, .basic .int]
  | 4 => .fields [.enum .numkind, .basic .int]
  | 5 => .empty
  | 6 => .empty
  | tag => .invalid tag "looker"

/-- `setter`: the kinds of the two raw stores are the enumerations here. -/
def Setter.format : Fmt := .tagged fun
  | 1 => .empty
  | 2 => .empty
  | 3 => .empty
  | 4 => .empty
  | 5 => .fields [.enum .numkind, .basic .int]
  | 6 => .fields [.enum .numkind, .basic .int]
  | 7 => .empty
  | 8 => .empty
  | tag => .invalid tag "setter"

/-- `branch`: the two comparisons have an enumeration, and the other branches none. -/
def Branch.format : Fmt := .tagged fun
  | 1 => .fields [.enum .cmpop, .basic .bool, .basic .int]
  | 2 => .fields [.enum .fcmpop, .basic .int]
  | 3 => .basic .int
  | 4 => .empty
  | 5 => .empty
  | 6 => .basic .uint
  | tag => .invalid tag "branch"

end CfgPrim

/-! ### `CFG` -/

namespace Cfg

/-- `ty`: no enumeration, at most a size. -/
def Ty.format : Fmt := .tagged fun
  | 1 => .empty
  | 2 => .empty
  | 3 => .empty
  | 4 => .basic .int
  | 5 => .basic .int
  | tag => .invalid tag "ty"

/-- `exp`: the enumerations are those of the operators, at any depth of the arguments. -/
def Exp.format : Fmt := .tagged fun
  | 1 => .basic .lvar
  | 2 => .basic .lvar
  | 3 => .fields [.basic .integer, .basic .int]
  | 4 => .fields [CfgPrim.Looker.format, .seq (.ref .exp)]
  | 5 => .fields [CfgPrim.Pure.format, .seq (.ref .exp)]
  | 6 => .fields [.basic .int, .ref .exp]
  | tag => .invalid tag "exp"

/-- `param`: the name and the type. -/
def Param.format : Fmt := .fields [.basic .lvar, Ty.format]

/-- `stm`: every field in the order of the reader, the continuations last. -/
def Stm.format : Fmt := .tagged fun
  | 1 => .fields [.ref .exp, Param.format, .ref .stm]
  | 2 => .fields [CfgPrim.Alloc.format, .seq (.ref .exp), .basic .lvar, .ref .stm]
  | 3 => .fields [.ref .exp, .seq (.ref .exp), .seq Ty.format]
  | 4 => .fields [.ref .exp, .seq (.ref .exp), .seq Ty.format]
  | 5 => .fields [.basic .lvar, .seq (.ref .exp)]
  | 6 => .fields [.ref .exp, .seq (.ref .stm)]
  | 7 => .fields [CfgPrim.Branch.format, .seq (.ref .exp), .basic .int, .ref .stm, .ref .stm]
  | 8 => .fields [CfgPrim.Arith.format, .seq (.ref .exp), Param.format, .ref .stm]
  | 9 => .fields [CfgPrim.Setter.format, .seq (.ref .exp), .ref .stm]
  | 10 => .fields [.seq (.ref .exp), .seq (.basic .lvar), .ref .stm]
  | 11 => .fields [.basic .bool, .basic .string, CTypes.CProto.format, .seq (.ref .exp),
      .seq Param.format, .seq Param.format, .ref .stm]
  | tag => .invalid tag "stm"

/-- `frag`: the kind is the one enumeration that the tree itself has. -/
def Frag.format : Fmt := .fields [.enum .fragKind, .basic .lvar, .seq Param.format, .ref .stm]

/-- `attrs`: an integer and three flags. -/
def Attrs.format : Fmt := .fields [.basic .int, .basic .bool, .basic .bool, .basic .bool]

/-- `cluster`: the attributes and the fragments. -/
def Cluster.format : Fmt := .fields [Attrs.format, .seq Frag.format]

/-- `comp_unit`: the file name, the entry and the other clusters. -/
def CompUnit.format : Fmt := .fields [.basic .string, Cluster.format, .seq Cluster.format]

/-! ### Going through a pickle -/

/-- The rules of the recursive types: where a format refers to one of them, its format is
meant. -/
def rules : Nonterminal → Fmt
  | .c_type => CTypes.CType.format
  | .exp => Exp.format
  | .stm => Stm.format

/-- Collect the enumerations with their tags. It reads like the readers do and builds no tree, so
its result says what is in the bytes, whatever the readers make of it. -/
def tagScanner : Scanner Instream ReadError Basic Enum Nonterminal (Enum × Nat) :=
  { basic := Basic.skip, enum := fun e => (fun tag => (e, tag)) <$> readTag8, tag := readTag8,
    length := readUint, invalid := .invalidTag, deep := .outOfFuel, rules := rules }

/-- Collect the enumerations as the readers return them, from the same walk as the tags. -/
def fieldScanner : Scanner Instream ReadError Basic Enum Nonterminal EnumField :=
  tagScanner.map EnumField.ofTag

/-- Go through a pickle of a compilation unit, with the fuel of `CompUnit.read`, so that the
scanner and the reader run out of fuel on the same inputs. -/
def scanCompUnit {F : Type} (S : Scanner Instream ReadError Basic Enum Nonterminal F) :
    Reader (List F) := do
  let is ← get
  let fuel := is.bytes.length + 1
  S.walk (S.scan fuel) CompUnit.format

end Cfg

end SmlnjCfg

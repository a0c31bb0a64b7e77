import SmlnjCfg.Cfg.Syntax

/-!
# `SmlnjCfg.Cfg.Unpickle`: the code generator's unpicklers

The `read` members of `cfg.cpp`. The tags are the `_con_` enumerators of
`cfg.hpp`, numbered from `1` in the order of the declarations. The members
that call themselves recurse on the call stack of the code; here they take
a fuel, and `CompUnit.read` passes one more than the bytes of the stream,
since every call of a reader that recurses reads a tag.
-/

set_option autoImplicit false

namespace SmlnjCfg

open Asdl LambdaVar

/-- A reader whose recursion is deeper than its fuel. No input gets here with the fuel that
`CompUnit.read` passes. -/
def outOfFuel {α : Type} : Reader α := fun _ => .error .outOfFuel

/-- The readers of an `enum class` cast the tag to the type, whatever it is.
The list is the enumerators in the order of their declaration. -/
def readEnum {α : Type} (cons : List α) : Reader (Tagged α) := do
  let tag ← readTag8
  pure (Tagged.ofTag cons tag)

/-! ### `CTypes` -/

namespace CTypes

/-- `read_c_int`: the result is unchecked, like that of every reader of an enumeration. -/
def readCInt : Reader (Tagged CInt) :=
  readEnum [.I_char, .I_short, .I_int, .I_long, .I_long_long]

/-- `read_calling_convention`: a convention is a string on both sides. -/
def readCallingConvention : Reader (List Byte) := readString

/-- `c_type::read`: the types nest through arrays, structures and unions, which is where the fuel
goes. -/
def CType.read : Nat → Reader (CType .cpp)
  | 0 => outOfFuel
  | fuel + 1 => do
      let tag ← readTag8
      match tag with
      | 1 => pure .C_void
      | 2 => pure .C_float
      | 3 => pure .C_double
      | 4 => pure .C_long_double
      | 5 => do
          let f0 ← readCInt
          pure (.C_unsigned f0)
      | 6 => do
          let f0 ← readCInt
          pure (.C_signed f0)
      | 7 => pure .C_PTR
      | 8 => do
          let f0 ← CType.read fuel
          let f1 ← readInt
          pure (.C_ARRAY f0 f1)
      | 9 => do
          let f0 ← readSeq (CType.read fuel)
          pure (.C_STRUCT f0)
      | 10 => do
          let f0 ← readSeq (CType.read fuel)
          pure (.C_UNION f0)
      | tag => invalidTag tag "c_type"

/-- `c_proto::read`: the convention, the result, then the parameters. The fuel is that of the
statement that the prototype is a field of. -/
def CProto.read (fuel : Nat) : Reader (CProto .cpp) := do
  let fconv ← readCallingConvention
  let fretTy ← CType.read fuel
  let fparamTys ← readSeq (CType.read fuel)
  pure { conv := fconv, retTy := fretTy, paramTys := fparamTys }

end CTypes

/-! ### `CFG_Prim` -/

namespace CfgPrim

/-- `read_numkind`, unchecked, so that a field can hold a kind that is neither `INT` nor `FLT`. -/
def readNumkind : Reader (Tagged Numkind) := readEnum [.INT, .FLT]

/-- `read_rounding_mode`, the modes in the order of `cfg.sml`. -/
def readRoundingMode : Reader (Tagged RoundingMode) :=
  readEnum [.TO_NEAREST, .TO_NEGINF, .TO_POSINF, .TO_ZERO]

/-- `raw_ty::read`: the kind of a field comes before its size in bits. -/
def RawTy.read : Reader (RawTy .cpp) := do
  let fkind ← readNumkind
  let fsz ← readInt
  pure { kind := fkind, sz := fsz }

/-- `alloc::read`: the descriptor is an arbitrary-precision integer, and only that of a
`RAW_ALLOC` may be missing. -/
def Alloc.read : Reader (Alloc .cpp) := do
  let tag ← readTag8
  match tag with
  | 1 => pure .SPECIAL
  | 2 => do
      let fdesc ← readInteger
      let fmut ← readBool
      pure (.RECORD fdesc fmut)
  | 3 => do
      let fdesc ← readInteger
      let falign ← readInt
      let ffields ← readSeq RawTy.read
      pure (.RAW_RECORD fdesc falign ffields)
  | 4 => do
      let fdesc ← readIntegerOption
      let falign ← readInt
      let flen ← readInt
      pure (.RAW_ALLOC fdesc falign flen)
  | tag => invalidTag tag "alloc"

/-- `read_arithop`, the five operators that may raise. -/
def readArithop : Reader (Tagged Arithop) := readEnum [.IADD, .ISUB, .IMUL, .IDIV, .IREM]

/-- `arith::read`. The two sizes of a conversion come in the order from, to. -/
def Arith.read : Reader (Arith .cpp) := do
  let tag ← readTag8
  match tag with
  | 1 => do
      let foper ← readArithop
      let fsz ← readInt
      pure (.ARITH foper fsz)
  | 2 => do
      let fmode ← readRoundingMode
      let ffrom ← readInt
      let fto ← readInt
      pure (.FLOAT_TO_INT fmode ffrom fto)
  | tag => invalidTag tag "arith"

/-- `read_pureop`: the order of the list is the numbering, so it has to be that of the
declaration. -/
def readPureop : Reader (Tagged Pureop) :=
  readEnum [.ADD, .SUB, .MUL, .SDIV, .SREM, .UDIV, .UREM, .SHL, .ASHR, .LSHR, .ORB, .XORB,
    .ANDB, .CNTPOP, .CNTLZ, .CNTTZ, .ROTL, .ROTR, .FADD, .FSUB, .FMUL, .FDIV, .FREM, .FMADD,
    .FNEG, .FABS, .FCOPYSIGN, .FSQRT]

/-- `pure::read`, nine constructors, the first six of which carry one or two sizes in bits. -/
def Pure.read : Reader (CfgPrim.Pure .cpp) := do
  let tag ← readTag8
  match tag with
  | 1 => do
      let foper ← readPureop
      let fsz ← readInt
      pure (.PURE_ARITH foper fsz)
  | 2 => do
      let fsigned ← readBool
      let ffrom ← readInt
      let fto ← readInt
      pure (.EXTEND fsigned ffrom fto)
  | 3 => do
      let ffrom ← readInt
      let fto ← readInt
      pure (.TRUNC ffrom fto)
  | 4 => do
      let ffrom ← readInt
      let fto ← readInt
      pure (.INT_TO_FLOAT ffrom fto)
  | 5 => do
      let fsz ← readInt
      pure (.FLOAT_TO_BITS fsz)
  | 6 => do
      let fsz ← readInt
      pure (.BITS_TO_FLOAT fsz)
  | 7 => pure .PURE_SUBSCRIPT
  | 8 => do
      let fkind ← readNumkind
      let fsz ← readInt
      pure (.PURE_RAW_SUBSCRIPT fkind fsz)
  | 9 => do
      let fkind ← readNumkind
      let fsz ← readInt
      let foffset ← readInt
      pure (.RAW_SELECT fkind fsz foffset)
  | tag => invalidTag tag "pure"

/-- `looker::read`: the raw operations carry the kind and the size of what they load. -/
def Looker.read : Reader (Looker .cpp) := do
  let tag ← readTag8
  match tag with
  | 1 => pure .DEREF
  | 2 => pure .SUBSCRIPT
  | 3 => do
      let fkind ← readNumkind
      let fsz ← readInt
      pure (.RAW_SUBSCRIPT fkind fsz)
  | 4 => do
      let fkind ← readNumkind
      let fsz ← readInt
      pure (.RAW_LOAD fkind fsz)
  | 5 => pure .GET_HDLR
  | 6 => pure .GET_VAR
  | tag => invalidTag tag "looker"

/-- `setter::read`: the raw operations carry the kind and the size of what they store. -/
def Setter.read : Reader (Setter .cpp) := do
  let tag ← readTag8
  match tag with
  | 1 => pure .UNBOXED_UPDATE
  | 2 => pure .UPDATE
  | 3 => pure .UNBOXED_ASSIGN
  | 4 => pure .ASSIGN
  | 5 => do
      let fkind ← readNumkind
      let fsz ← readInt
      pure (.RAW_UPDATE fkind fsz)
  | 6 => do
      let fkind ← readNumkind
      let fsz ← readInt
      pure (.RAW_STORE fkind fsz)
  | 7 => pure .SET_HDLR
  | 8 => pure .SET_VAR
  | tag => invalidTag tag "setter"

/-- `read_cmpop`: signedness is a field of the branch and not part of the operator. -/
def readCmpop : Reader (Tagged Cmpop) := readEnum [.GT, .GTE, .LT, .LTE, .EQL, .NEQ]

/-- `read_fcmpop`: the fourteen predicates of IEEE 754, in the order of the declaration. -/
def readFcmpop : Reader (Tagged Fcmpop) :=
  readEnum [.F_EQ, .F_ULG, .F_UN, .F_LEG, .F_GT, .F_GE, .F_UGT, .F_UGE, .F_LT, .F_LE, .F_ULT,
    .F_ULE, .F_LG, .F_UE]

/-- `branch::read`. The argument of `LIMIT` is the only unsigned one. -/
def Branch.read : Reader (Branch .cpp) := do
  let tag ← readTag8
  match tag with
  | 1 => do
      let foper ← readCmpop
      let fsigned ← readBool
      let fsz ← readInt
      pure (.CMP foper fsigned fsz)
  | 2 => do
      let foper ← readFcmpop
      let fsz ← readInt
      pure (.FCMP foper fsz)
  | 3 => do
      let f0 ← readInt
      pure (.FSGN f0)
  | 4 => pure .PEQL
  | 5 => pure .PNEQ
  | 6 => do
      let f0 ← readUint
      pure (.LIMIT f0)
  | tag => invalidTag tag "branch"

end CfgPrim

/-! ### `CFG` -/

namespace Cfg

/-- `ty::read`: only the raw integers and floats carry a size. -/
def Ty.read : Reader Ty := do
  let tag ← readTag8
  match tag with
  | 1 => pure .LABt
  | 2 => pure .PTRt
  | 3 => pure .TAGt
  | 4 => do
      let fsz ← readInt
      pure (.NUMt fsz)
  | 5 => do
      let fsz ← readInt
      pure (.FLTt fsz)
  | tag => invalidTag tag "ty"

/-- `exp::read`. A label and a variable have the same fields and differ in the tag only. -/
def Exp.read : Nat → Reader (Exp .cpp)
  | 0 => outOfFuel
  | fuel + 1 => do
      let tag ← readTag8
      match tag with
      | 1 => do
          let fname ← readLvar
          pure (.VAR fname)
      | 2 => do
          let fname ← readLvar
          pure (.LABEL fname)
      | 3 => do
          let fiv ← readInteger
          let fsz ← readInt
          pure (.NUM fiv fsz)
      | 4 => do
          let foper ← CfgPrim.Looker.read
          let fargs ← readSeq (Exp.read fuel)
          pure (.LOOKER foper fargs)
      | 5 => do
          let foper ← CfgPrim.Pure.read
          let fargs ← readSeq (Exp.read fuel)
          pure (.PURE foper fargs)
      | 6 => do
          let fidx ← readInt
          let farg ← Exp.read fuel
          pure (.SELECT fidx farg)
      | tag => invalidTag tag "exp"

/-- `param::read`: the name comes before the type. -/
def Param.read : Reader Param := do
  let fname ← readLvar
  let fty ← Ty.read
  pure { name := fname, ty := fty }

/-- `read_probability`: a probability is pickled as a plain integer. -/
def readProbability : Reader Int := readInt

/-- `stm::read`. The reader recurses in the position of every continuation, so the depth is that
of the whole rest of a fragment and not that of an expression. -/
def Stm.read : Nat → Reader (Stm .cpp)
  | 0 => outOfFuel
  | fuel + 1 => do
      let tag ← readTag8
      match tag with
      | 1 => do
          let f0 ← Exp.read fuel
          let f1 ← Param.read
          let f2 ← Stm.read fuel
          pure (.LET f0 f1 f2)
      | 2 => do
          let f0 ← CfgPrim.Alloc.read
          let f1 ← readSeq (Exp.read fuel)
          let f2 ← readLvar
          let f3 ← Stm.read fuel
          pure (.ALLOC f0 f1 f2 f3)
      | 3 => do
          let f0 ← Exp.read fuel
          let f1 ← readSeq (Exp.read fuel)
          let f2 ← readSeq Ty.read
          pure (.APPLY f0 f1 f2)
      | 4 => do
          let f0 ← Exp.read fuel
          let f1 ← readSeq (Exp.read fuel)
          let f2 ← readSeq Ty.read
          pure (.THROW f0 f1 f2)
      | 5 => do
          let f0 ← readLvar
          let f1 ← readSeq (Exp.read fuel)
          pure (.GOTO f0 f1)
      | 6 => do
          let f0 ← Exp.read fuel
          let f1 ← readSeq (Stm.read fuel)
          pure (.SWITCH f0 f1)
      | 7 => do
          let f0 ← CfgPrim.Branch.read
          let f1 ← readSeq (Exp.read fuel)
          let f2 ← readProbability
          let f3 ← Stm.read fuel
          let f4 ← Stm.read fuel
          pure (.BRANCH f0 f1 f2 f3 f4)
      | 8 => do
          let f0 ← CfgPrim.Arith.read
          let f1 ← readSeq (Exp.read fuel)
          let f2 ← Param.read
          let f3 ← Stm.read fuel
          pure (.ARITH f0 f1 f2 f3)
      | 9 => do
          let f0 ← CfgPrim.Setter.read
          let f1 ← readSeq (Exp.read fuel)
          let f2 ← Stm.read fuel
          pure (.SETTER f0 f1 f2)
      | 10 => do
          let f0 ← readSeq (Exp.read fuel)
          let f1 ← readLvarSeq
          let f2 ← Stm.read fuel
          pure (.CALLGC f0 f1 f2)
      | 11 => do
          let freentrant ← readBool
          let flinkage ← readString
          let fproto ← CTypes.CProto.read fuel
          let fargs ← readSeq (Exp.read fuel)
          let fresults ← readSeq Param.read
          let flive ← readSeq Param.read
          let fk ← Stm.read fuel
          pure (.RCC freentrant flinkage fproto fargs fresults flive fk)
      | tag => invalidTag tag "stm"

/-- `read_frag_kind`, unchecked: an unknown kind is only noticed when the fragment is compiled. -/
def readFragKind : Reader (Tagged FragKind) :=
  readEnum [.STD_FUN, .STD_CONT, .KNOWN_FUN, .INTERNAL]

/-- `frag::read`: the kind, the label, the parameters and the body. -/
def Frag.read (fuel : Nat) : Reader (Frag .cpp) := do
  let fkind ← readFragKind
  let flab ← readLvar
  let fparams ← readSeq Param.read
  let fbody ← Stm.read fuel
  pure { kind := fkind, lab := flab, params := fparams, body := fbody }

/-- `attrs::read`: the alignment of the heap pointer and three flags. -/
def Attrs.read : Reader Attrs := do
  let falignHP ← readInt
  let fneedsBasePtr ← readBool
  let fhasTrapArith ← readBool
  let fhasRCC ← readBool
  pure { alignHP := falignHP, needsBasePtr := fneedsBasePtr, hasTrapArith := fhasTrapArith,
         hasRCC := fhasRCC }

/-- `cluster::read`: a cluster without a fragment is read like any other. -/
def Cluster.read (fuel : Nat) : Reader (Cluster .cpp) := do
  let fattrs ← Attrs.read
  let ffrags ← readSeq (Frag.read fuel)
  pure { attrs := fattrs, frags := ffrags }

/-- `comp_unit::read`. The fuel is one more than the bytes of the whole stream, which no input
exhausts: each level of recursion has read a tag of its own. -/
def CompUnit.read : Reader (CompUnit .cpp) := do
  let is ← get
  let fuel := is.bytes.length + 1
  let fsrcFile ← readString
  let fentry ← Cluster.read fuel
  let ffns ← readSeq (Cluster.read fuel)
  pure { srcFile := fsrcFile, entry := fentry, fns := ffns }

end Cfg

end SmlnjCfg

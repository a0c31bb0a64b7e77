import SmlnjCfg.Cfg.Syntax

/-!
# `SmlnjCfg.Cfg.Pickle`: the front end's picklers

The writers of `cfg-file-pickle.sml`, over the `ASDLFilePickle` structure
they are written against. Each definition carries the name of the SML
function and lists the fields in the order in which it writes them.
-/

set_option autoImplicit false

namespace SmlnjCfg.CfgFilePickle

open Asdl LambdaVar CTypes Cfg

variable (P : ASDLFilePickle)

/-! ### `CTypesFilePickle` -/

/-- `write_c_int`. -/
def writeCInt : CInt → List Byte
  | .I_char => P.writeTag8 1
  | .I_short => P.writeTag8 2
  | .I_int => P.writeTag8 3
  | .I_long => P.writeTag8 4
  | .I_long_long => P.writeTag8 5

/-- `write_calling_convention`: the name of the convention, which is empty for the default one. -/
def writeCallingConvention (obj : List Byte) : List Byte := P.writeString obj

mutual

/-- `write_c_type`. Only structures, unions and arrays recurse, and the last two of their fields
are the same on the wire: a length and the members. -/
def writeCType : CType .sml → List Byte
  | .C_void => P.writeTag8 1
  | .C_float => P.writeTag8 2
  | .C_double => P.writeTag8 3
  | .C_long_double => P.writeTag8 4
  | .C_unsigned x0 => P.writeTag8 5 ++ writeCInt P x0
  | .C_signed x0 => P.writeTag8 6 ++ writeCInt P x0
  | .C_PTR => P.writeTag8 7
  | .C_ARRAY x0 x1 => P.writeTag8 8 ++ (writeCType x0 ++ P.writeInt x1)
  | .C_STRUCT x0 => P.writeTag8 9 ++ (P.writeUInt x0.length ++ writeCTypes x0)
  | .C_UNION x0 => P.writeTag8 10 ++ (P.writeUInt x0.length ++ writeCTypes x0)

/-- The loop of `writeSeq write_c_type`. It is a definition of its own so that the recursion is on
the tree; `writeCTypes_eq` says that it is the loop. -/
def writeCTypes : List (CType .sml) → List Byte
  | [] => []
  | x :: xr => writeCType x ++ writeCTypes xr

end

/-- `write_c_proto`: the convention, the type of the result, and the types of the parameters. -/
def writeCProto (obj : CProto .sml) : List Byte :=
  writeCallingConvention P obj.conv ++
  (writeCType P obj.retTy ++ P.writeSeq (writeCType P) obj.paramTys)

/-! ### `CFG_PrimFilePickle` -/

open CfgPrim

/-- `write_fcmpop`. The tags are those of the declaration order in `cfg.sml`, here and in the
other enumerations. -/
def writeFcmpop : Fcmpop → List Byte
  | .F_EQ => P.writeTag8 1
  | .F_ULG => P.writeTag8 2
  | .F_UN => P.writeTag8 3
  | .F_LEG => P.writeTag8 4
  | .F_GT => P.writeTag8 5
  | .F_GE => P.writeTag8 6
  | .F_UGT => P.writeTag8 7
  | .F_UGE => P.writeTag8 8
  | .F_LT => P.writeTag8 9
  | .F_LE => P.writeTag8 10
  | .F_ULT => P.writeTag8 11
  | .F_ULE => P.writeTag8 12
  | .F_LG => P.writeTag8 13
  | .F_UE => P.writeTag8 14

/-- `write_cmpop`. -/
def writeCmpop : Cmpop → List Byte
  | .GT => P.writeTag8 1
  | .GTE => P.writeTag8 2
  | .LT => P.writeTag8 3
  | .LTE => P.writeTag8 4
  | .EQL => P.writeTag8 5
  | .NEQ => P.writeTag8 6

/-- `write_branch`. The limit of a `LIMIT` is a word and written as such, unlike the sizes. -/
def writeBranch : Branch .sml → List Byte
  | .CMP oper signed sz =>
      P.writeTag8 1 ++ (writeCmpop P oper ++ (P.writeBool signed ++ P.writeInt sz))
  | .FCMP oper sz => P.writeTag8 2 ++ (writeFcmpop P oper ++ P.writeInt sz)
  | .FSGN x0 => P.writeTag8 3 ++ P.writeInt x0
  | .PEQL => P.writeTag8 4
  | .PNEQ => P.writeTag8 5
  | .LIMIT x0 => P.writeTag8 6 ++ P.writeUInt x0

/-- `write_numkind`: integer or floating point. -/
def writeNumkind : Numkind → List Byte
  | .INT => P.writeTag8 1
  | .FLT => P.writeTag8 2

/-- `write_setter`. Only the raw setters have a kind and a size. -/
def writeSetter : Setter .sml → List Byte
  | .UNBOXED_UPDATE => P.writeTag8 1
  | .UPDATE => P.writeTag8 2
  | .UNBOXED_ASSIGN => P.writeTag8 3
  | .ASSIGN => P.writeTag8 4
  | .RAW_UPDATE kind sz => P.writeTag8 5 ++ (writeNumkind P kind ++ P.writeInt sz)
  | .RAW_STORE kind sz => P.writeTag8 6 ++ (writeNumkind P kind ++ P.writeInt sz)
  | .SET_HDLR => P.writeTag8 7
  | .SET_VAR => P.writeTag8 8

/-- `write_looker`. As with the setters, only the raw ones have fields. -/
def writeLooker : Looker .sml → List Byte
  | .DEREF => P.writeTag8 1
  | .SUBSCRIPT => P.writeTag8 2
  | .RAW_SUBSCRIPT kind sz => P.writeTag8 3 ++ (writeNumkind P kind ++ P.writeInt sz)
  | .RAW_LOAD kind sz => P.writeTag8 4 ++ (writeNumkind P kind ++ P.writeInt sz)
  | .GET_HDLR => P.writeTag8 5
  | .GET_VAR => P.writeTag8 6

/-- `write_pureop`. -/
def writePureop : Pureop → List Byte
  | .ADD => P.writeTag8 1
  | .SUB => P.writeTag8 2
  | .MUL => P.writeTag8 3
  | .SDIV => P.writeTag8 4
  | .SREM => P.writeTag8 5
  | .UDIV => P.writeTag8 6
  | .UREM => P.writeTag8 7
  | .SHL => P.writeTag8 8
  | .ASHR => P.writeTag8 9
  | .LSHR => P.writeTag8 10
  | .ORB => P.writeTag8 11
  | .XORB => P.writeTag8 12
  | .ANDB => P.writeTag8 13
  | .CNTPOP => P.writeTag8 14
  | .CNTLZ => P.writeTag8 15
  | .CNTTZ => P.writeTag8 16
  | .ROTL => P.writeTag8 17
  | .ROTR => P.writeTag8 18
  | .FADD => P.writeTag8 19
  | .FSUB => P.writeTag8 20
  | .FMUL => P.writeTag8 21
  | .FDIV => P.writeTag8 22
  | .FREM => P.writeTag8 23
  | .FMADD => P.writeTag8 24
  | .FNEG => P.writeTag8 25
  | .FABS => P.writeTag8 26
  | .FCOPYSIGN => P.writeTag8 27
  | .FSQRT => P.writeTag8 28

/-- `write_pure`. A conversion has two sizes, the one it comes from first. -/
def writePure : CfgPrim.Pure .sml → List Byte
  | .PURE_ARITH oper sz => P.writeTag8 1 ++ (writePureop P oper ++ P.writeInt sz)
  | .EXTEND signed fromSz toSz =>
      P.writeTag8 2 ++ (P.writeBool signed ++ (P.writeInt fromSz ++ P.writeInt toSz))
  | .TRUNC fromSz toSz => P.writeTag8 3 ++ (P.writeInt fromSz ++ P.writeInt toSz)
  | .INT_TO_FLOAT fromSz toSz => P.writeTag8 4 ++ (P.writeInt fromSz ++ P.writeInt toSz)
  | .FLOAT_TO_BITS sz => P.writeTag8 5 ++ P.writeInt sz
  | .BITS_TO_FLOAT sz => P.writeTag8 6 ++ P.writeInt sz
  | .PURE_SUBSCRIPT => P.writeTag8 7
  | .PURE_RAW_SUBSCRIPT kind sz => P.writeTag8 8 ++ (writeNumkind P kind ++ P.writeInt sz)
  | .RAW_SELECT kind sz offset =>
      P.writeTag8 9 ++ (writeNumkind P kind ++ (P.writeInt sz ++ P.writeInt offset))

/-- `write_arithop`. -/
def writeArithop : Arithop → List Byte
  | .IADD => P.writeTag8 1
  | .ISUB => P.writeTag8 2
  | .IMUL => P.writeTag8 3
  | .IDIV => P.writeTag8 4
  | .IREM => P.writeTag8 5

/-- `write_rounding_mode`. -/
def writeRoundingMode : RoundingMode → List Byte
  | .TO_NEAREST => P.writeTag8 1
  | .TO_NEGINF => P.writeTag8 2
  | .TO_POSINF => P.writeTag8 3
  | .TO_ZERO => P.writeTag8 4

/-- `write_arith`. The rounding mode comes before the two sizes. -/
def writeArith : Arith .sml → List Byte
  | .ARITH oper sz => P.writeTag8 1 ++ (writeArithop P oper ++ P.writeInt sz)
  | .FLOAT_TO_INT mode fromSz toSz =>
      P.writeTag8 2 ++ (writeRoundingMode P mode ++ (P.writeInt fromSz ++ P.writeInt toSz))

/-- `write_raw_ty`: one field of a raw record. -/
def writeRawTy (obj : RawTy .sml) : List Byte := writeNumkind P obj.kind ++ P.writeInt obj.sz

/-- `write_alloc`. The descriptor is a multi-precision integer, and optional for `RAW_ALLOC`
alone. -/
def writeAlloc : Alloc .sml → List Byte
  | .SPECIAL => P.writeTag8 1
  | .RECORD desc isMut => P.writeTag8 2 ++ (P.writeInteger desc ++ P.writeBool isMut)
  | .RAW_RECORD desc align fields =>
      P.writeTag8 3 ++
      (P.writeInteger desc ++ (P.writeInt align ++ P.writeSeq (writeRawTy P) fields))
  | .RAW_ALLOC desc align len =>
      P.writeTag8 4 ++ (P.writeOption P.writeInteger desc ++ (P.writeInt align ++ P.writeInt len))

/-! ### `CFGFilePickle` -/

/-- `write_attrs`: the alignment of the heap pointer and three flags of a cluster. -/
def writeAttrs (obj : Attrs) : List Byte :=
  P.writeInt obj.alignHP ++
  (P.writeBool obj.needsBasePtr ++ (P.writeBool obj.hasTrapArith ++ P.writeBool obj.hasRCC))

/-- `write_frag_kind`. -/
def writeFragKind : FragKind → List Byte
  | .STD_FUN => P.writeTag8 1
  | .STD_CONT => P.writeTag8 2
  | .KNOWN_FUN => P.writeTag8 3
  | .INTERNAL => P.writeTag8 4

/-- `write_probability`: an integer as it is, where `0` says that nothing is known. -/
def writeProbability (obj : Int) : List Byte := P.writeInt obj

/-- `write_ty`. Labels, pointers and tagged integers have no size of their own. -/
def writeTy : Ty → List Byte
  | .LABt => P.writeTag8 1
  | .PTRt => P.writeTag8 2
  | .TAGt => P.writeTag8 3
  | .NUMt sz => P.writeTag8 4 ++ P.writeInt sz
  | .FLTt sz => P.writeTag8 5 ++ P.writeInt sz

/-- `write_param`: a variable with its type. -/
def writeParam (obj : Param) : List Byte := writeLvar obj.name ++ writeTy P obj.ty

mutual

/-- `write_exp`. The list of arguments of an operation is written by the loop below. -/
def writeExp : Exp .sml → List Byte
  | .VAR name => P.writeTag8 1 ++ writeLvar name
  | .LABEL name => P.writeTag8 2 ++ writeLvar name
  | .NUM iv sz => P.writeTag8 3 ++ (P.writeInteger iv ++ P.writeInt sz)
  | .LOOKER oper args =>
      P.writeTag8 4 ++ (writeLooker P oper ++ (P.writeUInt args.length ++ writeExps args))
  | .PURE oper args =>
      P.writeTag8 5 ++ (writePure P oper ++ (P.writeUInt args.length ++ writeExps args))
  | .SELECT idx arg => P.writeTag8 6 ++ (P.writeInt idx ++ writeExp arg)

/-- The loop of `writeSeq write_exp`, as `writeCTypes` is for types. -/
def writeExps : List (Exp .sml) → List Byte
  | [] => []
  | x :: xr => writeExp x ++ writeExps xr

end

mutual

/-- `write_stm`. The fields have no names in the SML source, since the constructors take tuples;
the order is that of the tuple. -/
def writeStm : Stm .sml → List Byte
  | .LET x0 x1 x2 => P.writeTag8 1 ++ (writeExp P x0 ++ (writeParam P x1 ++ writeStm x2))
  | .ALLOC x0 x1 x2 x3 =>
      P.writeTag8 2 ++
      (writeAlloc P x0 ++ (P.writeSeq (writeExp P) x1 ++ (writeLvar x2 ++ writeStm x3)))
  | .APPLY x0 x1 x2 =>
      P.writeTag8 3 ++
      (writeExp P x0 ++ (P.writeSeq (writeExp P) x1 ++ P.writeSeq (writeTy P) x2))
  | .THROW x0 x1 x2 =>
      P.writeTag8 4 ++
      (writeExp P x0 ++ (P.writeSeq (writeExp P) x1 ++ P.writeSeq (writeTy P) x2))
  | .GOTO x0 x1 => P.writeTag8 5 ++ (writeLvar x0 ++ P.writeSeq (writeExp P) x1)
  | .SWITCH x0 x1 =>
      P.writeTag8 6 ++ (writeExp P x0 ++ (P.writeUInt x1.length ++ writeStms x1))
  | .BRANCH x0 x1 x2 x3 x4 =>
      P.writeTag8 7 ++
      (writeBranch P x0 ++
        (P.writeSeq (writeExp P) x1 ++ (writeProbability P x2 ++ (writeStm x3 ++ writeStm x4))))
  | .ARITH x0 x1 x2 x3 =>
      P.writeTag8 8 ++
      (writeArith P x0 ++ (P.writeSeq (writeExp P) x1 ++ (writeParam P x2 ++ writeStm x3)))
  | .SETTER x0 x1 x2 =>
      P.writeTag8 9 ++ (writeSetter P x0 ++ (P.writeSeq (writeExp P) x1 ++ writeStm x2))
  | .CALLGC x0 x1 x2 =>
      P.writeTag8 10 ++ (P.writeSeq (writeExp P) x0 ++ (P.writeSeq writeLvar x1 ++ writeStm x2))
  | .RCC reentrant linkage proto args results live k =>
      P.writeTag8 11 ++
      (P.writeBool reentrant ++
        (P.writeString linkage ++
          (writeCProto P proto ++
            (P.writeSeq (writeExp P) args ++
              (P.writeSeq (writeParam P) results ++
                (P.writeSeq (writeParam P) live ++ writeStm k))))))

/-- The loop of `writeSeq write_stm`, for the cases of a `SWITCH`. -/
def writeStms : List (Stm .sml) → List Byte
  | [] => []
  | x :: xr => writeStm x ++ writeStms xr

end

/-- `write_frag`: the kind, the label, the parameters and the body. -/
def writeFrag (obj : Frag .sml) : List Byte :=
  writeFragKind P obj.kind ++
  (writeLvar obj.lab ++ (P.writeSeq (writeParam P) obj.params ++ writeStm P obj.body))

/-- `write_cluster`: the attributes, and the fragments with the entry in front. -/
def writeCluster (obj : Cluster .sml) : List Byte :=
  writeAttrs P obj.attrs ++ P.writeSeq (writeFrag P) obj.frags

/-- `write_comp_unit`: the name of the source file, the entry cluster, and the other clusters. -/
def writeCompUnit (obj : CompUnit .sml) : List Byte :=
  P.writeString obj.srcFile ++
  (writeCluster P obj.entry ++ P.writeSeq (writeCluster P) obj.fns)

/-! ### The written loops

The recursive writers carry their own copy of the loop of `writeSeq`. -/

/-- The loop over types is the one of `writeSeq`, without the length in front. -/
theorem writeCTypes_eq (xs : List (CType .sml)) :
    writeCTypes P xs = xs.flatMap (writeCType P) := by
  induction xs with
  | nil => rfl
  | cons x xs ih => rw [writeCTypes, ih, List.flatMap_cons]

/-- The loop over expressions is that of `writeSeq` too. -/
theorem writeExps_eq (xs : List (Exp .sml)) : writeExps P xs = xs.flatMap (writeExp P) := by
  induction xs with
  | nil => rfl
  | cons x xs ih => rw [writeExps, ih, List.flatMap_cons]

/-- And so is the loop over statements. -/
theorem writeStms_eq (xs : List (Stm .sml)) : writeStms P xs = xs.flatMap (writeStm P) := by
  induction xs with
  | nil => rfl
  | cons x xs ih => rw [writeStms, ih, List.flatMap_cons]

end SmlnjCfg.CfgFilePickle

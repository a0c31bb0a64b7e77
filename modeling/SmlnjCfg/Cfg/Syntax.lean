import SmlnjCfg.Asdl.Integer
import SmlnjCfg.LambdaVar

/-!
# `SmlnjCfg.Cfg.Syntax`: the CFG intermediate representation

The types of `cfg.sml` and of the C++ classes generated for them. The two
sides have the same constructors and fields, and differ in how they
represent an arbitrary-precision integer and an enumeration; `Rep` is that
difference. The constructors and fields keep the names of the source, but
for `from`, `to` and `mut`, which are `fromSz`, `toSz` and `isMut` here.

* `Rep.sml`: integers are mathematical, an enumeration is a datatype.
* `Rep.cpp`: integers are `asdl::integer`, and a field of an `enum class`
  may hold any number cast to it.
-/

set_option autoImplicit false

namespace SmlnjCfg

/-- How a language represents the integers and the enumerations of a tree. -/
structure Rep where
  /-- Arbitrary-precision integers. -/
  integer : Type
  /-- A field that ranges over an enumeration. -/
  enum : Type → Type

/-- A value of a C++ `enum class`: one of the enumerators, or another number
that was cast to the type. -/
inductive Tagged (α : Type) where
  | con (a : α)
  | undeclared (tag : Nat)
  deriving DecidableEq

/-- `static_cast` of a tag to an `enum class` whose enumerators are numbered
from `1` in the order of the list. -/
def Tagged.ofTag {α : Type} (cons : List α) : Nat → Tagged α
  | 0 => .undeclared 0
  | n + 1 =>
      match cons[n]? with
      | some a => .con a
      | none => .undeclared (n + 1)

/-- The representation of the front end: mathematical integers and plain datatypes. -/
abbrev Rep.sml : Rep := ⟨Int, fun α => α⟩

/-- The representation of the code generator: `asdl::integer` and unchecked `enum class`
values. -/
abbrev Rep.cpp : Rep := ⟨Asdl.Integer, Tagged⟩

/-! ### C types -/

namespace CTypes

/-- `c_int`: the C integer types. -/
inductive CInt where
  | I_char | I_short | I_int | I_long | I_long_long
  deriving DecidableEq

/-- `c_type`: the types of a C prototype. Arrays, structures and unions nest, so the type is
recursive. -/
inductive CType (R : Rep) where
  | C_void
  | C_float
  | C_double
  | C_long_double
  | C_unsigned (ty : R.enum CInt)
  | C_signed (ty : R.enum CInt)
  | C_PTR
  | C_ARRAY (ty : CType R) (len : Int)
  | C_STRUCT (fields : List (CType R))
  | C_UNION (fields : List (CType R))

/-- `c_proto`: the calling convention, the result and the parameters of a C function. -/
structure CProto (R : Rep) where
  conv : List Byte
  retTy : CType R
  paramTys : List (CType R)

end CTypes

/-! ### Primitive operations -/

namespace CfgPrim

/-- `numkind`: a raw value is an integer or a float. -/
inductive Numkind where
  | INT | FLT
  deriving DecidableEq

/-- `raw_ty`: a field of a `RAW_RECORD`, its size in bits. -/
structure RawTy (R : Rep) where
  kind : R.enum Numkind
  sz : Int

/-- `alloc`: the allocation operations. -/
inductive Alloc (R : Rep) where
  | SPECIAL
  | RECORD (desc : R.integer) (isMut : Bool)
  | RAW_RECORD (desc : R.integer) (align : Int) (fields : List (RawTy R))
  | RAW_ALLOC (desc : Option R.integer) (align len : Int)

/-- `arithop`: the operators that may overflow. -/
inductive Arithop where
  | IADD | ISUB | IMUL | IDIV | IREM
  deriving DecidableEq

/-- `rounding_mode`. -/
inductive RoundingMode where
  | TO_NEAREST | TO_NEGINF | TO_POSINF | TO_ZERO
  deriving DecidableEq

/-- `arith`: the operations with a continuation that may raise, with their sizes in bits. -/
inductive Arith (R : Rep) where
  | ARITH (oper : R.enum Arithop) (sz : Int)
  | FLOAT_TO_INT (mode : R.enum RoundingMode) (fromSz toSz : Int)

/-- `pureop`: the operators that do not overflow. -/
inductive Pureop where
  | ADD | SUB | MUL
  | SDIV | SREM
  | UDIV | UREM
  | SHL | ASHR | LSHR
  | ORB | XORB | ANDB
  | CNTPOP | CNTLZ | CNTTZ
  | ROTL | ROTR
  | FADD | FSUB | FMUL | FDIV | FREM
  | FMADD
  | FNEG | FABS | FCOPYSIGN
  | FSQRT
  deriving DecidableEq

/-- `pure`: the operations that neither raise nor read a mutable cell. The sizes are in bits, and
the offset of a `RAW_SELECT` is in bytes. -/
inductive Pure (R : Rep) where
  | PURE_ARITH (oper : R.enum Pureop) (sz : Int)
  | EXTEND (signed : Bool) (fromSz toSz : Int)
  | TRUNC (fromSz toSz : Int)
  | INT_TO_FLOAT (fromSz toSz : Int)
  | FLOAT_TO_BITS (sz : Int)
  | BITS_TO_FLOAT (sz : Int)
  | PURE_SUBSCRIPT
  | PURE_RAW_SUBSCRIPT (kind : R.enum Numkind) (sz : Int)
  | RAW_SELECT (kind : R.enum Numkind) (sz offset : Int)

/-- `looker`: the operations that read a mutable cell or a special register. -/
inductive Looker (R : Rep) where
  | DEREF
  | SUBSCRIPT
  | RAW_SUBSCRIPT (kind : R.enum Numkind) (sz : Int)
  | RAW_LOAD (kind : R.enum Numkind) (sz : Int)
  | GET_HDLR
  | GET_VAR

/-- `setter`: the operations that write. `UPDATE` and `ASSIGN` also note the address in the store
list, and the unboxed variants do not. -/
inductive Setter (R : Rep) where
  | UNBOXED_UPDATE
  | UPDATE
  | UNBOXED_ASSIGN
  | ASSIGN
  | RAW_UPDATE (kind : R.enum Numkind) (sz : Int)
  | RAW_STORE (kind : R.enum Numkind) (sz : Int)
  | SET_HDLR
  | SET_VAR

/-- `fcmpop`: the IEEE 754 predicates. -/
inductive Fcmpop where
  | F_EQ | F_ULG | F_UN | F_LEG
  | F_GT | F_GE | F_UGT | F_UGE
  | F_LT | F_LE | F_ULT | F_ULE
  | F_LG | F_UE
  deriving DecidableEq

/-- `cmpop`: the integer comparisons, whose signedness is a field of `CMP`. -/
inductive Cmpop where
  | GT | GTE | LT | LTE | EQL | NEQ
  deriving DecidableEq

/-- `branch`: the two-way branches. `LIMIT` is the heap-limit check, with the words still
needed. -/
inductive Branch (R : Rep) where
  | CMP (oper : R.enum Cmpop) (signed : Bool) (sz : Int)
  | FCMP (oper : R.enum Fcmpop) (sz : Int)
  | FSGN (sz : Int)
  | PEQL
  | PNEQ
  | LIMIT (amt : Nat)

end CfgPrim

/-! ### Expressions, statements and clusters -/

namespace Cfg

/-- `ty`: the types that the front end gives to a variable: a label, a pointer, a tagged integer,
and raw integers and floats with their sizes in bits. -/
inductive Ty where
  | LABt
  | PTRt
  | TAGt
  | NUMt (sz : Int)
  | FLTt (sz : Int)
  deriving DecidableEq

/-- `param`: a bound variable with its type. -/
structure Param where
  name : LVar
  ty : Ty
  deriving DecidableEq

/-- `exp`: the expressions, which the generator computes without leaving a block. -/
inductive Exp (R : Rep) where
  | VAR (name : LVar)
  | LABEL (name : LVar)
  | NUM (iv : R.integer) (sz : Int)
  | LOOKER (oper : CfgPrim.Looker R) (args : List (Exp R))
  | PURE (oper : CfgPrim.Pure R) (args : List (Exp R))
  | SELECT (idx : Int) (arg : Exp R)

/-- `stm`. The probability of a `BRANCH` is in thousandths, `0` for none. -/
inductive Stm (R : Rep) where
  | LET (exp : Exp R) (param : Param) (k : Stm R)
  | ALLOC (oper : CfgPrim.Alloc R) (args : List (Exp R)) (lhs : LVar) (k : Stm R)
  | APPLY (fn : Exp R) (args : List (Exp R)) (tys : List Ty)
  | THROW (fn : Exp R) (args : List (Exp R)) (tys : List Ty)
  | GOTO (lab : LVar) (args : List (Exp R))
  | SWITCH (arg : Exp R) (cases : List (Stm R))
  | BRANCH (oper : CfgPrim.Branch R) (args : List (Exp R)) (prob : Int)
      (trueK falseK : Stm R)
  | ARITH (oper : CfgPrim.Arith R) (args : List (Exp R)) (param : Param) (k : Stm R)
  | SETTER (oper : CfgPrim.Setter R) (args : List (Exp R)) (k : Stm R)
  | CALLGC (roots : List (Exp R)) (newRoots : List LVar) (k : Stm R)
  | RCC (reentrant : Bool) (linkage : List Byte) (proto : CTypes.CProto R)
      (args : List (Exp R)) (results live : List Param) (k : Stm R)

/-- `frag_kind`: how a fragment is called. The kind decides the calling convention of its
entry. -/
inductive FragKind where
  | STD_FUN | STD_CONT | KNOWN_FUN | INTERNAL
  deriving DecidableEq

/-- `frag`: an extended basic block, the parameters of which are the arguments of its callers. -/
structure Frag (R : Rep) where
  kind : R.enum FragKind
  lab : LVar
  params : List Param
  body : Stm R

/-- `attrs`: the attributes of a cluster. -/
structure Attrs where
  alignHP : Int
  needsBasePtr : Bool
  hasTrapArith : Bool
  hasRCC : Bool
  deriving DecidableEq

/-- `cluster`: a maximal flow graph. The first fragment is the entry. -/
structure Cluster (R : Rep) where
  attrs : Attrs
  frags : List (Frag R)

/-- `comp_unit`: the clusters of a source file. The first is the entry of the whole unit. -/
structure CompUnit (R : Rep) where
  srcFile : List Byte
  entry : Cluster R
  fns : List (Cluster R)

end Cfg

end SmlnjCfg

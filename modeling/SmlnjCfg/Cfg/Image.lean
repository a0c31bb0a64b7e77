import SmlnjCfg.Cfg.Syntax

/-!
# `SmlnjCfg.Cfg.Image`: the trees both sides can represent

`toCpp` is the tree of the code generator that has the constructors and
fields of a tree of the front end; only integers and enumerations change
their representation. `InRange` says that the numbers of a tree fit the
encodings: lambda variables are below `2 ^ 31`, machine integers have 30
bits, words, strings and lists stay below `2 ^ 30`, and integers below
`2 ^ 28` bits. The predicates of the recursive types are inductive, so that
a proof about a tree in range is an induction on them.
-/

set_option autoImplicit false

namespace SmlnjCfg

open Asdl

/-! ### The ranges of the basic values -/

/-- A lambda variable the C++ reader gives back: it is cast to a signed number of 32 bits there,
so what has the top bit set would come back negative. -/
def LvarInRange (x : LVar) : Prop := 0 ≤ x ∧ x < 2 ^ 31

/-- A machine integer of 30 bits, as the writer asserts. -/
def IntInRange (i : Int) : Prop := -2 ^ 29 ≤ i ∧ i < 2 ^ 29

/-- An integer of at most `2 ^ 28` bits. The writer has no such limit, but the reader counts bits
and digits in numbers of 32 bits. -/
def IntegerInRange (i : Int) : Prop := i.natAbs.size ≤ 2 ^ 28

instance (x : LVar) : Decidable (LvarInRange x) :=
  inferInstanceAs (Decidable (0 ≤ x ∧ x < 2 ^ 31))

instance (i : Int) : Decidable (IntInRange i) :=
  inferInstanceAs (Decidable (-2 ^ 29 ≤ i ∧ i < 2 ^ 29))

instance (i : Int) : Decidable (IntegerInRange i) :=
  inferInstanceAs (Decidable (i.natAbs.size ≤ 2 ^ 28))

/-- A list that is not too long, all of whose elements are in range. The length is a word of 30
bits. -/
def ListInRange {α : Type} (p : α → Prop) (xs : List α) : Prop :=
  xs.length < 2 ^ 30 ∧ ∀ x ∈ xs, p x

/-! ### C types -/

namespace CTypes

mutual

/-- The tree of the code generator for a C type. -/
def CType.toCpp : CType .sml → CType .cpp
  | .C_void => .C_void
  | .C_float => .C_float
  | .C_double => .C_double
  | .C_long_double => .C_long_double
  | .C_unsigned ty => .C_unsigned (.con ty)
  | .C_signed ty => .C_signed (.con ty)
  | .C_PTR => .C_PTR
  | .C_ARRAY ty len => .C_ARRAY ty.toCpp len
  | .C_STRUCT fields => .C_STRUCT (CType.toCpps fields)
  | .C_UNION fields => .C_UNION (CType.toCpps fields)

/-- `toCpp` on the elements of a list. -/
def CType.toCpps : List (CType .sml) → List (CType .cpp)
  | [] => []
  | t :: ts => t.toCpp :: CType.toCpps ts

end

/-- The loop over a list of types is `map`. -/
theorem CType.toCpps_eq (ts : List (CType .sml)) : CType.toCpps ts = ts.map CType.toCpp := by
  induction ts with
  | nil => rfl
  | cons t ts ih => rw [CType.toCpps, ih, List.map_cons]

/-- The numbers of a C type are in range: the length of an array, and the numbers of members. -/
inductive CType.InRange : CType .sml → Prop where
  | C_void : InRange .C_void
  | C_float : InRange .C_float
  | C_double : InRange .C_double
  | C_long_double : InRange .C_long_double
  | C_unsigned (ty : CInt) : InRange (.C_unsigned ty)
  | C_signed (ty : CInt) : InRange (.C_signed ty)
  | C_PTR : InRange .C_PTR
  | C_ARRAY {ty : CType .sml} {len : Int} (hty : InRange ty) (hlen : IntInRange len) :
      InRange (.C_ARRAY ty len)
  | C_STRUCT {fields : List (CType .sml)} (hlen : fields.length < 2 ^ 30)
      (hfields : ∀ t ∈ fields, InRange t) : InRange (.C_STRUCT fields)
  | C_UNION {fields : List (CType .sml)} (hlen : fields.length < 2 ^ 30)
      (hfields : ∀ t ∈ fields, InRange t) : InRange (.C_UNION fields)

/-- The prototype of the code generator. The name of the convention is the same. -/
def CProto.toCpp (p : CProto .sml) : CProto .cpp :=
  { conv := p.conv, retTy := p.retTy.toCpp, paramTys := p.paramTys.map CType.toCpp }

/-- The numbers of a prototype are in range. -/
def CProto.InRange (p : CProto .sml) : Prop :=
  p.conv.length < 2 ^ 30 ∧ p.retTy.InRange ∧ ListInRange CType.InRange p.paramTys

end CTypes

/-! ### Primitive operations -/

namespace CfgPrim

/-- The tree of the code generator. -/
def RawTy.toCpp (t : RawTy .sml) : RawTy .cpp := { kind := .con t.kind, sz := t.sz }

/-- The size of a field is in range. -/
def RawTy.InRange (t : RawTy .sml) : Prop := IntInRange t.sz

/-- The allocation of the code generator: the descriptor becomes a sequence of digits. -/
def Alloc.toCpp : Alloc .sml → Alloc .cpp
  | .SPECIAL => .SPECIAL
  | .RECORD desc isMut => .RECORD (Integer.ofInt desc) isMut
  | .RAW_RECORD desc align fields =>
      .RAW_RECORD (Integer.ofInt desc) align (fields.map RawTy.toCpp)
  | .RAW_ALLOC desc align len => .RAW_ALLOC (desc.map Integer.ofInt) align len

/-- The numbers of an allocation are in range. -/
def Alloc.InRange : Alloc .sml → Prop
  | .SPECIAL => True
  | .RECORD desc _ => IntegerInRange desc
  | .RAW_RECORD desc align fields =>
      IntegerInRange desc ∧ IntInRange align ∧ ListInRange RawTy.InRange fields
  | .RAW_ALLOC desc align len =>
      (∀ d ∈ desc, IntegerInRange d) ∧ IntInRange align ∧ IntInRange len

/-- The trapping operation of the code generator, whose operator is a declared one. -/
def Arith.toCpp : Arith .sml → Arith .cpp
  | .ARITH oper sz => .ARITH (.con oper) sz
  | .FLOAT_TO_INT mode fromSz toSz => .FLOAT_TO_INT (.con mode) fromSz toSz

/-- The numbers of an arithmetic operation are in range. -/
def Arith.InRange : Arith .sml → Prop
  | .ARITH _ sz => IntInRange sz
  | .FLOAT_TO_INT _ fromSz toSz => IntInRange fromSz ∧ IntInRange toSz

/-- The pure operation of the code generator. -/
def Pure.toCpp : CfgPrim.Pure .sml → CfgPrim.Pure .cpp
  | .PURE_ARITH oper sz => .PURE_ARITH (.con oper) sz
  | .EXTEND signed fromSz toSz => .EXTEND signed fromSz toSz
  | .TRUNC fromSz toSz => .TRUNC fromSz toSz
  | .INT_TO_FLOAT fromSz toSz => .INT_TO_FLOAT fromSz toSz
  | .FLOAT_TO_BITS sz => .FLOAT_TO_BITS sz
  | .BITS_TO_FLOAT sz => .BITS_TO_FLOAT sz
  | .PURE_SUBSCRIPT => .PURE_SUBSCRIPT
  | .PURE_RAW_SUBSCRIPT kind sz => .PURE_RAW_SUBSCRIPT (.con kind) sz
  | .RAW_SELECT kind sz offset => .RAW_SELECT (.con kind) sz offset

/-- The numbers of a pure operation are in range. -/
def Pure.InRange : CfgPrim.Pure .sml → Prop
  | .PURE_ARITH _ sz => IntInRange sz
  | .EXTEND _ fromSz toSz => IntInRange fromSz ∧ IntInRange toSz
  | .TRUNC fromSz toSz => IntInRange fromSz ∧ IntInRange toSz
  | .INT_TO_FLOAT fromSz toSz => IntInRange fromSz ∧ IntInRange toSz
  | .FLOAT_TO_BITS sz => IntInRange sz
  | .BITS_TO_FLOAT sz => IntInRange sz
  | .PURE_SUBSCRIPT => True
  | .PURE_RAW_SUBSCRIPT _ sz => IntInRange sz
  | .RAW_SELECT _ sz offset => IntInRange sz ∧ IntInRange offset

/-- The looker of the code generator. -/
def Looker.toCpp : Looker .sml → Looker .cpp
  | .DEREF => .DEREF
  | .SUBSCRIPT => .SUBSCRIPT
  | .RAW_SUBSCRIPT kind sz => .RAW_SUBSCRIPT (.con kind) sz
  | .RAW_LOAD kind sz => .RAW_LOAD (.con kind) sz
  | .GET_HDLR => .GET_HDLR
  | .GET_VAR => .GET_VAR

/-- The numbers of a looker are in range. -/
def Looker.InRange : Looker .sml → Prop
  | .RAW_SUBSCRIPT _ sz => IntInRange sz
  | .RAW_LOAD _ sz => IntInRange sz
  | _ => True

/-- The setter of the code generator. -/
def Setter.toCpp : Setter .sml → Setter .cpp
  | .UNBOXED_UPDATE => .UNBOXED_UPDATE
  | .UPDATE => .UPDATE
  | .UNBOXED_ASSIGN => .UNBOXED_ASSIGN
  | .ASSIGN => .ASSIGN
  | .RAW_UPDATE kind sz => .RAW_UPDATE (.con kind) sz
  | .RAW_STORE kind sz => .RAW_STORE (.con kind) sz
  | .SET_HDLR => .SET_HDLR
  | .SET_VAR => .SET_VAR

/-- The numbers of a setter are in range. -/
def Setter.InRange : Setter .sml → Prop
  | .RAW_UPDATE _ sz => IntInRange sz
  | .RAW_STORE _ sz => IntInRange sz
  | _ => True

/-- The test of a branch, whose comparison is a declared one. -/
def Branch.toCpp : Branch .sml → Branch .cpp
  | .CMP oper signed sz => .CMP (.con oper) signed sz
  | .FCMP oper sz => .FCMP (.con oper) sz
  | .FSGN sz => .FSGN sz
  | .PEQL => .PEQL
  | .PNEQ => .PNEQ
  | .LIMIT amt => .LIMIT amt

/-- The numbers of a branch test are in range. -/
def Branch.InRange : Branch .sml → Prop
  | .CMP _ _ sz => IntInRange sz
  | .FCMP _ sz => IntInRange sz
  | .FSGN sz => IntInRange sz
  | .PEQL => True
  | .PNEQ => True
  | .LIMIT amt => amt < 2 ^ 30

end CfgPrim

/-! ### Expressions, statements and clusters -/

namespace Cfg

/-- The size of a type is in range. -/
def Ty.InRange : Ty → Prop
  | .NUMt sz => IntInRange sz
  | .FLTt sz => IntInRange sz
  | _ => True

/-- The numbers of a parameter are in range. -/
def Param.InRange (p : Param) : Prop := LvarInRange p.name ∧ p.ty.InRange

mutual

/-- The expression of the code generator. A constant becomes a sequence of digits, which is not
reduced to the size of the constant yet. -/
def Exp.toCpp : Exp .sml → Exp .cpp
  | .VAR name => .VAR name
  | .LABEL name => .LABEL name
  | .NUM iv sz => .NUM (Integer.ofInt iv) sz
  | .LOOKER oper args => .LOOKER oper.toCpp (Exp.toCpps args)
  | .PURE oper args => .PURE oper.toCpp (Exp.toCpps args)
  | .SELECT idx arg => .SELECT idx arg.toCpp

/-- `toCpp` on the elements of a list. -/
def Exp.toCpps : List (Exp .sml) → List (Exp .cpp)
  | [] => []
  | e :: es => e.toCpp :: Exp.toCpps es

end

/-- The loop over a list of expressions is `map`. -/
theorem Exp.toCpps_eq (es : List (Exp .sml)) : Exp.toCpps es = es.map Exp.toCpp := by
  induction es with
  | nil => rfl
  | cons e es ih => rw [Exp.toCpps, ih, List.map_cons]

/-- The numbers of an expression are in range. -/
inductive Exp.InRange : Exp .sml → Prop where
  | VAR {name : LVar} (hname : LvarInRange name) : InRange (.VAR name)
  | LABEL {name : LVar} (hname : LvarInRange name) : InRange (.LABEL name)
  | NUM {iv sz : Int} (hiv : IntegerInRange iv) (hsz : IntInRange sz) : InRange (.NUM iv sz)
  | LOOKER {oper : CfgPrim.Looker .sml} {args : List (Exp .sml)} (hoper : oper.InRange)
      (hlen : args.length < 2 ^ 30) (hargs : ∀ e ∈ args, InRange e) :
      InRange (.LOOKER oper args)
  | PURE {oper : CfgPrim.Pure .sml} {args : List (Exp .sml)} (hoper : oper.InRange)
      (hlen : args.length < 2 ^ 30) (hargs : ∀ e ∈ args, InRange e) :
      InRange (.PURE oper args)
  | SELECT {idx : Int} {arg : Exp .sml} (hidx : IntInRange idx) (harg : InRange arg) :
      InRange (.SELECT idx arg)

mutual

/-- The statement of the code generator, arm by arm. -/
def Stm.toCpp : Stm .sml → Stm .cpp
  | .LET exp param k => .LET exp.toCpp param k.toCpp
  | .ALLOC oper args lhs k => .ALLOC oper.toCpp (args.map Exp.toCpp) lhs k.toCpp
  | .APPLY fn args tys => .APPLY fn.toCpp (args.map Exp.toCpp) tys
  | .THROW fn args tys => .THROW fn.toCpp (args.map Exp.toCpp) tys
  | .GOTO lab args => .GOTO lab (args.map Exp.toCpp)
  | .SWITCH arg cases => .SWITCH arg.toCpp (Stm.toCpps cases)
  | .BRANCH oper args prob trueK falseK =>
      .BRANCH oper.toCpp (args.map Exp.toCpp) prob trueK.toCpp falseK.toCpp
  | .ARITH oper args param k => .ARITH oper.toCpp (args.map Exp.toCpp) param k.toCpp
  | .SETTER oper args k => .SETTER oper.toCpp (args.map Exp.toCpp) k.toCpp
  | .CALLGC roots newRoots k => .CALLGC (roots.map Exp.toCpp) newRoots k.toCpp
  | .RCC reentrant linkage proto args results live k =>
      .RCC reentrant linkage proto.toCpp (args.map Exp.toCpp) results live k.toCpp

/-- `toCpp` on the elements of a list. -/
def Stm.toCpps : List (Stm .sml) → List (Stm .cpp)
  | [] => []
  | s :: ss => s.toCpp :: Stm.toCpps ss

end

/-- The loop over a list of statements is `map`. -/
theorem Stm.toCpps_eq (ss : List (Stm .sml)) : Stm.toCpps ss = ss.map Stm.toCpp := by
  induction ss with
  | nil => rfl
  | cons s ss ih => rw [Stm.toCpps, ih, List.map_cons]

/-- The numbers of a statement are in range. The probability of a branch is one of them. -/
inductive Stm.InRange : Stm .sml → Prop where
  | LET {exp : Exp .sml} {param : Param} {k : Stm .sml} (hexp : exp.InRange)
      (hparam : param.InRange) (hk : InRange k) : InRange (.LET exp param k)
  | ALLOC {oper : CfgPrim.Alloc .sml} {args : List (Exp .sml)} {lhs : LVar} {k : Stm .sml}
      (hoper : oper.InRange) (hargs : ListInRange Exp.InRange args) (hlhs : LvarInRange lhs)
      (hk : InRange k) : InRange (.ALLOC oper args lhs k)
  | APPLY {fn : Exp .sml} {args : List (Exp .sml)} {tys : List Ty} (hfn : fn.InRange)
      (hargs : ListInRange Exp.InRange args) (htys : ListInRange Ty.InRange tys) :
      InRange (.APPLY fn args tys)
  | THROW {fn : Exp .sml} {args : List (Exp .sml)} {tys : List Ty} (hfn : fn.InRange)
      (hargs : ListInRange Exp.InRange args) (htys : ListInRange Ty.InRange tys) :
      InRange (.THROW fn args tys)
  | GOTO {lab : LVar} {args : List (Exp .sml)} (hlab : LvarInRange lab)
      (hargs : ListInRange Exp.InRange args) : InRange (.GOTO lab args)
  | SWITCH {arg : Exp .sml} {cases : List (Stm .sml)} (harg : arg.InRange)
      (hlen : cases.length < 2 ^ 30) (hcases : ∀ s ∈ cases, InRange s) :
      InRange (.SWITCH arg cases)
  | BRANCH {oper : CfgPrim.Branch .sml} {args : List (Exp .sml)} {prob : Int}
      {trueK falseK : Stm .sml} (hoper : oper.InRange)
      (hargs : ListInRange Exp.InRange args) (hprob : IntInRange prob)
      (htrue : InRange trueK) (hfalse : InRange falseK) :
      InRange (.BRANCH oper args prob trueK falseK)
  | ARITH {oper : CfgPrim.Arith .sml} {args : List (Exp .sml)} {param : Param}
      {k : Stm .sml} (hoper : oper.InRange) (hargs : ListInRange Exp.InRange args)
      (hparam : param.InRange) (hk : InRange k) : InRange (.ARITH oper args param k)
  | SETTER {oper : CfgPrim.Setter .sml} {args : List (Exp .sml)} {k : Stm .sml}
      (hoper : oper.InRange) (hargs : ListInRange Exp.InRange args) (hk : InRange k) :
      InRange (.SETTER oper args k)
  | CALLGC {roots : List (Exp .sml)} {newRoots : List LVar} {k : Stm .sml}
      (hroots : ListInRange Exp.InRange roots) (hnew : ListInRange LvarInRange newRoots)
      (hk : InRange k) : InRange (.CALLGC roots newRoots k)
  | RCC {reentrant : Bool} {linkage : List Byte} {proto : CTypes.CProto .sml}
      {args : List (Exp .sml)} {results live : List Param} {k : Stm .sml}
      (hlinkage : linkage.length < 2 ^ 30) (hproto : proto.InRange)
      (hargs : ListInRange Exp.InRange args) (hresults : ListInRange Param.InRange results)
      (hlive : ListInRange Param.InRange live) (hk : InRange k) :
      InRange (.RCC reentrant linkage proto args results live k)

/-- The fragment of the code generator, whose kind is a declared one. -/
def Frag.toCpp (f : Frag .sml) : Frag .cpp :=
  { kind := .con f.kind, lab := f.lab, params := f.params, body := f.body.toCpp }

/-- The numbers of a fragment are in range. -/
def Frag.InRange (f : Frag .sml) : Prop :=
  LvarInRange f.lab ∧ ListInRange Param.InRange f.params ∧ f.body.InRange

/-- The tree of the code generator. -/
def Cluster.toCpp (c : Cluster .sml) : Cluster .cpp :=
  { attrs := c.attrs, frags := c.frags.map Frag.toCpp }

/-- The numbers of a cluster are in range. -/
def Cluster.InRange (c : Cluster .sml) : Prop :=
  IntInRange c.attrs.alignHP ∧ ListInRange Frag.InRange c.frags

/-- The tree of the code generator. -/
def CompUnit.toCpp (cu : CompUnit .sml) : CompUnit .cpp :=
  { srcFile := cu.srcFile, entry := cu.entry.toCpp, fns := cu.fns.map Cluster.toCpp }

/-- The numbers of a compilation unit are in range. -/
def CompUnit.InRange (cu : CompUnit .sml) : Prop :=
  cu.srcFile.length < 2 ^ 30 ∧ cu.entry.InRange ∧ ListInRange Cluster.InRange cu.fns

end Cfg

end SmlnjCfg
